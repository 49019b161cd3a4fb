import LexicalScope.Proofs.CheckedAnalysis
import LexicalScope.Proofs.Sessions

/-!
Queries with checks. What an analysis leaves is in range, and a query starts from a node that the
session has found in the tree or from a scope of the graph, and goes on along stored numbers only.
So no check in a query ever fails either, whatever a session has been through.
-/
namespace LexicalScope

open Session (Request)

namespace Checked

section Definitions

variable {ν : Type}

def acquire (g : ScopeGraph ν) (n : NodeId) (inner : Bool) : Option (Option ScopeId) := do
  let anchored := g.scopesOf n
  match if inner then anchored.getLast? else anchored.head? with
  | none => return none
  | some found =>
    let scope ← g.getScope? found
    return if scope.kind = .functionName then scope.children[0]? else some found

def acquireFirst (g : ScopeGraph ν) (inner : Bool) : List NodeId → Option (Option ScopeId)
  | [] => some none
  | n :: nodes => do
    match ← acquire g n inner with
    | some s => return some s
    | none => acquireFirst g inner nodes

def scopeAt (g : ScopeGraph ν) (t : Tree) (n : NodeId) : Option ScopeId := do
  let kind ← t.kind? n
  return (← acquireFirst g (!kind.isProgram) (n :: t.ancestors n)).getD .global

variable [DecidableEq ν]

def findWithin (g : ScopeGraph ν) (name : ν) : Nat → ScopeId → Option (Option VariableId)
  | 0, _ => some none
  | fuel + 1, s => do
    let scope ← g.getScope? s
    match scope.table.get? name, scope.upper with
    | some v, _ => return some v
    | none, some u => findWithin g name fuel u
    | none, none => return none

def findVariable? (g : ScopeGraph ν) (s : ScopeId) (name : ν) : Option (Option VariableId) :=
  findWithin g name g.scopes.size s

def isGlobalReference (g : ScopeGraph ν) (name : ν) (n : NodeId) : Option Bool := do
  match ← globalVariable? g name with
  | none => return false
  | some v =>
    let binding ← g.getVariable? v
    let isUsed ← binding.references.toList.anyM fun r =>
      (g.getReference? r).map fun reference => reference.identifier = n
    return !binding.isDeclared && isUsed

def build (s : Session) : Option (Session × Except ScopeError (SourceFile × Analysis)) :=
  match s.active with
  | none => some (s, .error .noActiveFile)
  | some a =>
    match a.built with
    | some outcome => some (s, outcome.map (a.file, ·))
    | none => do
      let (names, outcome) ←
        analyze (s.names.table a.file.table) a.file.tree a.options a.environments
      let outcome := outcome.map fun g => (⟨g, a.file.table⟩ : Analysis)
      let names := s.names.set a.file.table names
      return ({ names, active := some { a with built := some outcome } },
        outcome.map (a.file, ·))

def answerAt {α : Type} (t : Tree) (n : NodeId) (answer : Option α) :
    Option (Except ScopeError α) :=
  if t.contains n then answer.map .ok else some (.error (.unknownNode n t.size))

/-- The answer of a session that has analysed its file. A scope is handed out as a whole. -/
def reply (names : NamePool) (file : SourceFile) (a : Analysis) :
    {α : Type} → Request α → Option (Except ScopeError α)
  | _, .scopes => some (.ok (text names a).scopes.toList)
  | _, .globalScope => do return .ok (some (← (text names a).globalScope?))
  | _, .manager => some (.ok (text names a))
  | _, .declaredVariables n => answerAt file.tree n (some (a.graph.declaredVariables n))
  | _, .acquire n inner => answerAt file.tree n do
    (← acquire a.graph n inner).mapM (text names a).getScope?
  | _, .scopeAt n => answerAt file.tree n do
    return some (← (text names a).getScope? (← scopeAt a.graph file.tree n))
  | _, .isGlobalReference n => answerAt file.tree n do
    match (file.tree.identifierName? n).bind (names.table file.table).get? with
    | none => return false
    | some name => isGlobalReference a.graph name n
where
  text (names : NamePool) (a : Analysis) : ScopeGraph String :=
    a.graph.mapNames (names.table a.table).resolve

def ask {α : Type} (s : Session) (q : Request α) : Option (Except ScopeError α × Session) := do
  match ← build s with
  | (s, .error e) => return (.error e, s)
  | (s, .ok (file, a)) => return (← reply s.names file a q, s)

end Definitions

section Manager

variable {ν : Type} [DecidableEq ν] {t : Tree} {g : ScopeGraph ν} (h : g.InRange t)
include h

theorem lt_of_mem_scopesOf {n : NodeId} {s : ScopeId} (hs : s ∈ g.scopesOf n) :
    s.index < g.scopes.size :=
  h.anchors.of_mem_getD (Array.mem_toList_iff.1 hs)

omit h [DecidableEq ν] in
theorem acquire_eq_bind (g : ScopeGraph ν) (n : NodeId) (inner : Bool) : g.acquire n inner =
    (if inner then (g.scopesOf n).getLast? else (g.scopesOf n).head?).bind fun found =>
      (g.getScope? found).bind fun scope =>
        if scope.kind = .functionName then scope.children[0]? else some found := by
  cases inner <;> rfl

/-- Looking for the scope at a node finds every scope on its list. -/
theorem acquire_eq (n : NodeId) (inner : Bool) : acquire g n inner = some (g.acquire n inner) := by
  rw [acquire_eq_bind, acquire]
  cases hfound : if inner then (g.scopesOf n).getLast? else (g.scopesOf n).head? with
  | none => rfl
  | some found =>
    have hmem : found ∈ g.scopesOf n := by
      cases inner with
      | true => exact List.mem_of_getLast? hfound
      | false => exact List.mem_of_head? hfound
    obtain ⟨scope, hscope⟩ := ScopeGraph.exists_getScope? (lt_of_mem_scopesOf h hmem)
    simp only [hscope, Option.bind_eq_bind, Option.bind_some]
    rfl

/-- The scope found at a node exists. -/
theorem lt_of_acquire {n : NodeId} {inner : Bool} {s : ScopeId} (hs : g.acquire n inner = some s) :
    s.index < g.scopes.size := by
  rw [acquire_eq_bind] at hs
  obtain ⟨found, hfound, hs⟩ := Option.bind_eq_some_iff.1 hs
  obtain ⟨scope, hscope, hs⟩ := Option.bind_eq_some_iff.1 hs
  split at hs
  · exact (h.of_getScope? hscope).children s (Array.mem_of_getElem? hs)
  · obtain rfl := Option.some.inj hs
    exact (Array.getElem?_eq_some_iff.1 hscope).1

theorem acquireFirst_eq (inner : Bool) (nodes : List NodeId) :
    acquireFirst g inner nodes = some (nodes.findSome? (g.acquire · inner)) := by
  induction nodes with
  | nil => rfl
  | cons n nodes ih =>
    rw [acquireFirst, acquire_eq h, List.findSome?_cons, Option.bind_eq_bind, Option.bind_some]
    cases g.acquire n inner with
    | none => exact ih
    | some s => rfl

/-- The climb to the scope around a node stays in the tree. -/
theorem scopeAt_eq {n : NodeId} (hn : t.contains n) : scopeAt g t n = some (g.scopeAt t n) := by
  obtain ⟨kind, hkind⟩ := exists_kind? hn
  simp only [scopeAt, ScopeGraph.scopeAt, Tree.isProgram, hkind, acquireFirst_eq h,
    Option.any_some, Option.bind_eq_bind, Option.bind_some]
  rfl

theorem lt_scopeAt (hglobal : 0 < g.scopes.size) (n : NodeId) :
    (g.scopeAt t n).index < g.scopes.size := by
  rw [ScopeGraph.scopeAt]
  cases hfound : (n :: t.ancestors n).findSome? (g.acquire · !t.isProgram n) with
  | none => exact hglobal
  | some s =>
    obtain ⟨m, -, hm⟩ := List.exists_of_findSome?_eq_some hfound
    exact lt_of_acquire h hm

/-- A look-up by name climbs scopes that exist. -/
theorem findWithin_eq (name : ν) (fuel : Nat) {s : ScopeId} (hs : s.index < g.scopes.size) :
    findWithin g name fuel s = some ((g.chainWithin fuel s).findSome? (g.inTable? · name)) := by
  induction fuel generalizing s with
  | zero => rfl
  | succ fuel ih =>
    obtain ⟨scope, hscope⟩ := ScopeGraph.exists_getScope? hs
    rw [findWithin, ScopeGraph.chainWithin, List.findSome?_cons, ScopeGraph.inTable?, hscope]
    simp only [Option.bind_eq_bind, Option.bind_some]
    cases scope.table.get? name with
    | some v => rfl
    | none =>
      cases hupper : scope.upper with
      | none => rfl
      | some u => exact ih ((h.of_getScope? hscope).upper u hupper)

theorem findVariable?_eq {s : ScopeId} (hs : s.index < g.scopes.size) (name : ν) :
    findVariable? g s name = some (g.findVariable? s name) :=
  findWithin_eq h name g.scopes.size hs

omit h [DecidableEq ν] in
theorem anyM_eq_some {α : Type} {l : List α} {p' : α → Option Bool} {p : α → Bool}
    (h : ∀ x ∈ l, p' x = some (p x)) : l.anyM p' = some (l.any p) := by
  induction l with
  | nil => rfl
  | cons x l ih =>
    obtain ⟨hx, hl⟩ := List.forall_mem_cons.1 h
    rw [List.anyM, hx, List.any_cons, Option.bind_eq_bind, Option.bind_some, ih hl]
    cases p x <;> rfl

/-- All references, variables and scopes that the query looks at exist. -/
theorem isGlobalReference_eq (hglobal : 0 < g.scopes.size) (name : ν) (n : NodeId) :
    isGlobalReference g name n = some (g.isGlobalReference name n) := by
  rw [isGlobalReference, globalVariable?_eq hglobal, ScopeGraph.isGlobalReference,
    Option.bind_eq_bind, Option.bind_some]
  cases hname : g.globalVariable? name with
  | none => rfl
  | some v =>
    obtain ⟨binding, hbinding⟩ := ScopeGraph.exists_getVariable? (h.of_inTable? hname)
    have hused : binding.references.toList.anyM (fun r =>
        (g.getReference? r).map fun reference => decide (reference.identifier = n)) =
        some (binding.references.toList.any fun r =>
          (g.getReference? r).any fun reference => decide (reference.identifier = n)) := by
      refine anyM_eq_some fun r hr => ?_
      obtain ⟨reference, hreference⟩ := ScopeGraph.exists_getReference?
        ((h.of_getVariable? hbinding).references r (Array.mem_toList_iff.1 hr))
      rw [hreference, Option.map_some, Option.any_some]
    simp only [hbinding, hused, Option.bind_eq_bind, Option.bind_some, Option.any_some,
      Array.any_toList]
    rfl

end Manager

end Checked

namespace Session

/-- The kept graph of a session is one of its file, in range. -/
def InRange (s : Session) : Prop :=
  ∀ file ∈ s.active, ∀ a, file.built = some (.ok a) →
    a.graph.InRange file.file.tree ∧ 0 < a.graph.scopes.size

section Build

variable {s : Session}

/-- What has been analysed once stays as it is. -/
theorem build_build (s : Session) : s.build.1.build = s.build := by
  unfold build
  cases hactive : s.active with
  | none => simp only [hactive]
  | some file =>
    cases hbuilt : file.built with
    | none => simp only [hbuilt]
    | some outcome => simp only [hactive, hbuilt]

theorem inRange_of_analyze {f : SourceFile} {names : NamePool} {o : LanguageOptions}
    {envs : Environments} {a : Analysis} (ha : (f.analyze names o envs).2 = .ok a) :
    a.graph.InRange f.tree ∧ 0 < a.graph.scopes.size := by
  unfold SourceFile.analyze at ha
  cases hanalyze : analyze (names.table f.table) f.tree o envs with
  | mk names' outcome =>
    rw [hanalyze] at ha
    cases outcome with
    | error e => cases ha
    | ok g =>
      obtain rfl := Except.ok.inj ha
      exact Checked.inRange_of_analyze hanalyze

/-- Analysing the file of a session leaves the kept graph in range. -/
theorem InRange.build (h : s.InRange) : s.build.1.InRange := by
  unfold Session.build
  cases hactive : s.active with
  | none => exact h
  | some file =>
    dsimp only
    cases hbuilt : file.built with
    | some outcome => exact h
    | none =>
      intro file' hfile' a ha
      obtain rfl := Option.mem_some_iff.1 hfile'
      exact inRange_of_analyze (Option.some.inj ha)

/-- A query is about the file that is loaded and the graph that is kept. -/
theorem exists_of_build {file : SourceFile} {a : Analysis} (ha : s.build.2 = .ok (file, a)) :
    ∃ active ∈ s.build.1.active, active.file = file ∧ active.built = some (.ok a) := by
  unfold Session.build at ha ⊢
  cases hactive : s.active with
  | none =>
    rw [hactive] at ha
    cases ha
  | some active =>
    rw [hactive] at ha
    dsimp only at ha ⊢
    cases hbuilt : active.built with
    | some outcome =>
      rw [hbuilt] at ha
      cases outcome with
      | error e => cases ha
      | ok a' =>
        obtain ⟨rfl, rfl⟩ := Prod.mk.inj (Except.ok.inj ha)
        exact ⟨active, hactive, rfl, hbuilt⟩
    | none =>
      rw [hbuilt] at ha
      dsimp only at ha
      cases houtcome : (active.file.analyze s.names active.options active.environments).2 with
      | error e =>
        rw [houtcome] at ha
        cases ha
      | ok a' =>
        rw [houtcome] at ha
        obtain ⟨rfl, rfl⟩ := Prod.mk.inj (Except.ok.inj ha)
        exact ⟨_, rfl, rfl, rfl⟩

theorem InRange.of_build (h : s.InRange) {file : SourceFile} {a : Analysis}
    (ha : s.build.2 = .ok (file, a)) :
    a.graph.InRange file.tree ∧ 0 < a.graph.scopes.size := by
  obtain ⟨active, hactive, rfl, hbuilt⟩ := exists_of_build ha
  exact h.build active hactive a hbuilt

end Build

end Session

namespace Checked

theorem build_eq (s : Session) : build s = some s.build := by
  unfold build Session.build
  cases s.active with
  | none => rfl
  | some file =>
    dsimp only
    cases file.built with
    | some outcome => rfl
    | none =>
      dsimp only
      rw [analyze_eq]
      rfl

section Ask

open Session (Query)

variable {s s' : Session} {file : SourceFile} {a : Analysis}

theorem answerAt_eq {α : Type} {t : Tree} {n : NodeId} {x : Option α} {answer : α}
    (h : t.contains n → x = some answer) :
    answerAt t n x = some (Request.answerAt t n answer) := by
  unfold answerAt Request.answerAt
  split
  · next hn =>
    rw [h hn]
    rfl
  · rfl

theorem run_graph (hload : Query.loaded.run.run s = (.ok (file, a), s')) :
    Query.graph.run.run s = (.ok (reply.text s'.names a), s') := by
  have hanalysis : Query.analysis.run.run s = (.ok a, s') := (Query.run_bind_ok hload).trans rfl
  exact (Query.run_bind_ok hanalysis).trans rfl

/-- Once a file is loaded, a query about a node only asks whether the file has the node. -/
theorem run_loadedAt (hload : Query.loaded.run.run s = (.ok (file, a), s')) (n : NodeId) :
    (Query.loadedAt n).run.run s = (Request.answerAt file.tree n (file, a.graph), s') := by
  refine (Query.run_bind_ok hload).trans ?_
  unfold Request.answerAt
  dsimp only
  split <;> rfl

theorem exists_text {s : ScopeId} (hs : s.index < a.graph.scopes.size) (names : NamePool) :
    ∃ scope, (reply.text names a).getScope? s = some scope := by
  obtain ⟨scope, hscope⟩ := ScopeGraph.exists_getScope? hs
  rw [reply.text, ScopeGraph.getScope?_mapNames, hscope]
  exact ⟨_, rfl⟩

/-- One case for each query. -/
theorem reply_eq (hload : Query.loaded.run.run s = (.ok (file, a), s'))
    (hagain : Query.loaded.run.run s' = (.ok (file, a), s')) (h : a.graph.InRange file.tree)
    (hglobal : 0 < a.graph.scopes.size) {α : Type} (q : Request α) :
    ∃ answer, reply s'.names file a q = some answer ∧ s.ask q = (answer, s') := by
  have hgraph := run_graph hload
  have hgraph' := run_graph hagain
  have hat := run_loadedAt hload
  cases q with
  | scopes => exact ⟨_, rfl, Query.run_bind_ok hgraph⟩
  | globalScope =>
    obtain ⟨scope, hscope⟩ := exists_text (s := .global) hglobal s'.names
    refine ⟨.ok (some scope), ?_, (Query.run_bind_ok hgraph).trans ?_⟩
    · rw [reply, ScopeGraph.globalScope?, hscope]
      rfl
    · rw [ScopeGraph.globalScope?, hscope]
      rfl
  | manager => exact ⟨_, rfl, hgraph⟩
  | declaredVariables n => exact ⟨_, answerAt_eq fun _ => rfl, Query.run_bind_at (hat n) rfl⟩
  | acquire n inner =>
    have hacquire : (Query.acquire n inner).run.run s =
        (Request.answerAt file.tree n (a.graph.acquire n inner), s') :=
      Query.run_bind_at (hat n) rfl
    refine ⟨_, answerAt_eq fun _ => ?_, Query.run_bind_at hacquire (Query.run_bind_ok hgraph')⟩
    rw [acquire_eq h, Option.bind_eq_bind, Option.bind_some]
    cases hfound : a.graph.acquire n inner with
    | none => rfl
    | some found =>
      obtain ⟨scope, hscope⟩ := exists_text (lt_of_acquire h hfound) s'.names
      rw [Option.mapM_some, Option.bind_some, hscope]
      rfl
  | scopeAt n =>
    have hscopeAt : (Query.scopeAt n).run.run s =
        (Request.answerAt file.tree n (a.graph.scopeAt file.tree n), s') :=
      Query.run_bind_at (hat n) rfl
    refine ⟨_, answerAt_eq fun hn => ?_, Query.run_bind_at hscopeAt (Query.run_bind_ok hgraph')⟩
    obtain ⟨scope, hscope⟩ := exists_text (lt_scopeAt h hglobal n) s'.names
    simp only [scopeAt_eq h hn, Option.bind_eq_bind, Option.bind_some, hscope]
    rfl
  | isGlobalReference n =>
    refine ⟨_, answerAt_eq fun _ => ?_, Query.run_bind_at (hat n) rfl⟩
    cases (file.tree.identifierName? n).bind (s'.names.table file.table).get? with
    | none => rfl
    | some name => exact isGlobalReference_eq h hglobal name n

/-- A query only analyses the file, and finds all that it looks up if the graph is in range. -/
theorem exists_ask (h : s.InRange) {α : Type} (q : Request α) :
    ∃ answer, ask s q = some (answer, s.build.1) ∧ s.ask q = (answer, s.build.1) := by
  rw [ask, build_eq, Option.bind_eq_bind, Option.bind_some]
  rcases hbuild : s.build with ⟨s', outcome⟩
  have hload : Query.loaded.run.run s = (outcome, s') := by
    show (s.build.2, s.build.1) = _
    rw [hbuild]
  cases outcome with
  | error e => exact ⟨_, rfl, Session.ask_error hload q⟩
  | ok loaded =>
    obtain ⟨file, a⟩ := loaded
    have hagain : Query.loaded.run.run s' = (.ok (file, a), s') := by
      show (s'.build.2, s'.build.1) = _
      rw [show s'.build = s.build from hbuild ▸ s.build_build, hbuild]
    obtain ⟨hrange, hglobal⟩ := h.of_build (congrArg Prod.snd hbuild)
    obtain ⟨answer, hreply, hask⟩ := reply_eq hload hagain hrange hglobal q
    refine ⟨answer, ?_, hask⟩
    show (reply s'.names file a q).bind _ = _
    rw [hreply]
    rfl

theorem ask_eq (h : s.InRange) {α : Type} (q : Request α) : ask s q = some (s.ask q) := by
  obtain ⟨answer, hchecked, hask⟩ := exists_ask h q
  rw [hchecked, hask]

end Ask

end Checked

theorem Session.inRange_of_idle {s : Session} (hs : s.active = none) : s.InRange := by
  intro file hfile
  rw [hs] at hfile
  cases hfile

/-- No action takes a session out of range. -/
theorem Session.InRange.perform {s : Session} (h : s.InRange) (action : Session.Action) :
    (action.perform s).InRange := by
  cases action with
  | load l =>
    intro file hfile a ha
    obtain rfl := Option.mem_some_iff.1 hfile
    cases ha
  | reset => exact inRange_of_idle rfl
  | ask q =>
    obtain ⟨answer, -, hask⟩ := Checked.exists_ask h q
    show (s.ask q).2.InRange
    rw [hask]
    exact h.build
  | markUsed name n => exact h
  | share table texts => exact h

theorem Session.inRange_run {s : Session} (h : s.InRange) (actions : List Session.Action) :
    (s.run actions).InRange :=
  List.foldlRecOn actions _ h fun _ h action _ => h.perform action

/-- In the graph of a tree, all numbers are in range and all look-ups of a query find what they
are after. -/
structure ScopeGraph.LookupsSucceed (t : Tree) (g : ScopeGraph Name) : Prop where
  inRange : g.InRange t
  globalScope : 0 < g.scopes.size
  acquire : ∀ n inner, Checked.acquire g n inner = some (g.acquire n inner)
  globalVariable : ∀ name, Checked.globalVariable? g name = some (g.globalVariable? name)
  findVariable : ∀ s : ScopeId, s.index < g.scopes.size → ∀ name,
    Checked.findVariable? g s name = some (g.findVariable? s name)

/-- No number ever leads out of its list: neither in the analysis of a tree, nor in a query about
the graph that it gives, nor in a query to a session, whatever has happened to the session. -/
theorem lookups_succeed (names : NameTable) (t : Tree) (o : LanguageOptions) (envs : Environments) :
    Checked.analyze names t o envs = some (analyze names t o envs) ∧
    (∀ g, (analyze names t o envs).2 = .ok g → g.LookupsSucceed t) ∧
    ∀ (pool : NamePool) (actions : List Session.Action) {α : Type} (q : Session.Request α),
      Checked.ask (({ names := pool } : Session).run actions) q =
        some ((({ names := pool } : Session).run actions).ask q) := by
  refine ⟨Checked.analyze_eq names t o envs, fun g hg => ?_, fun pool actions α q => ?_⟩
  · obtain ⟨hrange, hglobal⟩ := Checked.inRange_of_analyze (Prod.ext rfl hg)
    exact {
      inRange := hrange
      globalScope := hglobal
      acquire := Checked.acquire_eq hrange
      globalVariable := Checked.globalVariable?_eq hglobal
      findVariable := fun s hs => Checked.findVariable?_eq hrange hs }
  · exact Checked.ask_eq (Session.inRange_run (Session.inRange_of_idle rfl) actions) q

/-- A small program, asked about its root with checks: by its graph and in a session. -/
theorem lookups_assignedTwice : ∃ t names g, ∃ s : Session, Build.tree assignedTwice = .ok t ∧
    analyze {} t {} {} = (names, .ok g) ∧ g.scopes.size = 1 ∧ g.references.size = 4 ∧
    s = ({} : Session).run [.load ⟨⟨t, ⟨0⟩⟩, {}, {}⟩] ∧ g.InRange t ∧
    Checked.acquire g t.root false = some (some .global) ∧
    Checked.ask s (.scopeAt t.root) = some (s.ask (.scopeAt t.root)) := by
  obtain ⟨t, names, g, ht, h, hscopes, hreferences, hacquire⟩ := exists_analysis assignedTwice {} {}
    (fun t _ g => g.scopes.size = 1 ∧ g.references.size = 4 ∧
      g.acquire t.root false = some .global) (by decide +kernel)
  obtain ⟨-, hgraph, hask⟩ := lookups_succeed {} t {} {}
  have hg := hgraph g (congrArg Prod.snd h)
  exact ⟨t, names, g, _, ht, h, hscopes, hreferences, rfl, hg.inRange,
    (hg.acquire t.root false).trans (congrArg some hacquire), hask {} _ (.scopeAt t.root)⟩

end LexicalScope
