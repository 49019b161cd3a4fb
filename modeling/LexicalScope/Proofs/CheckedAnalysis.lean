import LexicalScope.Proofs.Analyzed
import LexicalScope.Proofs.CheckedGraph

/-!
Analysing a file with checks. A walk starts with the global scope and then takes steps that name
nodes of the tree only, and the settings of a file name only its comments. So no check on the way
from a tree to its scope graph ever fails, and the graph is in range.
-/
namespace LexicalScope

section Settings

def InlineGlobal.Below (size : Nat) (entry : InlineGlobal) : Prop :=
  ∀ c ∈ entry.comments, c.index < size

namespace DirectiveTable

variable {size : Nat} {c : CommentId}

/-- An entry only brings in the comment that it stands in. -/
theorem below_addGlobal {globals : OrderedMap String InlineGlobal}
    (h : globals.All (InlineGlobal.Below size)) (hc : c.index < size)
    (entry : String × GlobalValue) : (addGlobal c globals entry).All (InlineGlobal.Below size) := by
  refine h.insert entry.1 ?_
  cases hold : globals.get? entry.1 with
  | none => exact List.forall_mem_singleton.2 hc
  | some old =>
    have hcomments := h entry.1 old hold
    rw [Option.map_some, Option.getD_some, InlineGlobal.again, InlineGlobal.Below]
    dsimp only
    split
    · exact hcomments
    · exact List.forall_mem_append.2 ⟨hcomments, List.forall_mem_singleton.2 hc⟩

theorem below_add {d : DirectiveTable} (h : d.globals.All (InlineGlobal.Below size))
    (hc : c.index < size) (directive : Directive) :
    (d.add c directive).globals.All (InlineGlobal.Below size) := by
  cases directive with
  | globals entries =>
    exact List.foldlRecOn entries (addGlobal c) h fun _ h entry _ => below_addGlobal h hc entry
  | exported names => exact h

theorem below_ofComments (comments : Array Comment) :
    (ofComments comments).globals.All (InlineGlobal.Below comments.size) := by
  have hempty : ({} : DirectiveTable).globals.All (InlineGlobal.Below comments.size) := nofun
  refine List.foldlRecOn (motive := fun d : DirectiveTable => d.globals.All _) _ _ hempty
    fun d h entry hentry => ?_
  obtain ⟨comment, index⟩ := entry
  have hindex : index < comments.size := (List.mem_zipIdx' hentry).1
  rw [addComment]
  split
  · cases Directive.ofComment? comment.text with
    | none => exact h
    | some directive => exact below_add h hindex directive
  · exact h

end DirectiveTable

/-- The comments that the settings name belong to the tree. -/
def GlobalSettings.InRange {ν : Type} [DecidableEq ν] (t : Tree) (settings : GlobalSettings ν) :
    Prop :=
  settings.inlined.All (InlineGlobal.Below t.comments.size)

theorem GlobalSettings.inRange_ofFile (t : Tree) (o : LanguageOptions) (envs : Environments) :
    (GlobalSettings.ofFile o envs t.comments).InRange t :=
  DirectiveTable.below_ofComments t.comments

theorem GlobalSettings.InRange.mapNames {ν μ : Type} [DecidableEq ν] [DecidableEq μ] {t : Tree}
    {settings : GlobalSettings ν} (h : settings.InRange t) (f : ν → μ) :
    (settings.mapNames f).InRange t :=
  OrderedMap.All.mapKeys h f

end Settings

/-- The graph of a cursor is in range, and the open scopes and the global one are in it. -/
structure Cursor.InRange {ν : Type} [DecidableEq ν] (t : Tree) (c : Cursor ν) : Prop where
  graph : c.graph.InRange t
  opened : ∀ s ∈ c.opened, s.index < c.graph.scopes.size
  global : 0 < c.graph.scopes.size

theorem Definition.IsGrounded.fits {ν : Type} {t : Tree} {d : Definition} (h : d.IsGrounded t)
    (g : ScopeGraph ν) : d.Fits (g.sizes t) where
  name := of_decide_eq_true h.name
  node := of_decide_eq_true h.node
  parent p hp := of_decide_eq_true (h.parent p hp)

/-- The nodes that an occurrence names belong to the tree. -/
theorem Tree.Uses.contains {ν : Type} {t : Tree} {o : Occurrence ν} (h : t.Uses o) :
    t.contains o.identifier ∧ (∀ m ∈ o.writeExpr, t.contains m) ∧
      ∀ m ∈ o.assignment, t.contains m := by
  cases h with
  | read hn => exact ⟨hn, nofun, nofun⟩
  | update hn hexpr => exact ⟨hn, hexpr, nofun⟩
  | initialise hn hexpr => exact ⟨hn, fun m hm => Option.mem_some_iff.1 hm ▸ hexpr, nofun⟩
  | assign hn hexpr hnode =>
    exact ⟨hn, fun m hm => Option.mem_some_iff.1 hm ▸ hexpr,
      fun m hm => Option.mem_some_iff.1 hm ▸ contains_of_assigns hnode⟩

theorem Cursor.InRange.current_lt {ν : Type} [DecidableEq ν] {t : Tree} {c : Cursor ν}
    (h : c.InRange t) : c.current.index < c.graph.scopes.size := by
  rw [Cursor.current]
  cases hopened : c.opened with
  | nil => exact h.global
  | cons s outer => exact h.opened s (hopened ▸ List.mem_cons_self ..)

namespace Checked

variable {ν : Type} [DecidableEq ν]

section Definitions

def place (c : Cursor ν) : Place → Option ScopeId
  | .current => some c.current
  | .variableScope => (c.graph.getScope? c.current).map (·.variableScope)

def leaveAll (t : Tree) (block : NodeId) (g : ScopeGraph ν) : List ScopeId → Option (Cursor ν)
  | [] => some ⟨g, []⟩
  | s :: outer => do
    let scope ← g.getScope? s
    if scope.block = block then leaveAll t block (← closeScope t g s) outer
    else return ⟨g, s :: outer⟩

def step (t : Tree) (c : Cursor ν) : Step ν → Option (Cursor ν)
  | .enter kind block strict => do
    let entered ← openScope t c.graph kind block strict c.opened.head?
    return ⟨entered, c.graph.nextScope :: c.opened⟩
  | .leave block => leaveAll t block c.graph c.opened
  | .declare p name definition => do
    let declared ← declare c.graph (← place c p) name definition
    return { c with graph := declared }
  | .refer o => do
    let _ ← c.graph.getScope? c.current
    let entered ← addReference c.graph (c.reference o)
    return { c with graph := entered }
  | .this => do
    let scope ← c.graph.getScope? c.current
    let found ← modifyScope c.graph scope.variableScope fun s => { s with thisFound := true }
    return { c with graph := found }
  | .misplacedImport _ => some c

def run (t : Tree) (c : Cursor ν) (steps : List (Step ν)) : Option (Cursor ν) :=
  steps.foldlM (step t) c

def globalVariable? (g : ScopeGraph ν) (name : ν) : Option (Option VariableId) :=
  inTable? g .global name

def applyPreset (configured : OrderedMap ν GlobalValue) (g : ScopeGraph ν) (preset : ν × Bool) :
    Option (ScopeGraph ν) := do
  let (name, isWritable) := preset
  let present ← globalVariable? g name
  if configured.contains name || present.isSome then return g
  else
    let (bound, v) ← bind g .global name
    modifyVariable bound v fun v =>
      { v with
        writable := some isWritable
        implicitGlobalSetting := some (.ofBool isWritable) }

def configure (g : ScopeGraph ν) (name : ν) (f : Variable ν → Variable ν) :
    Option (ScopeGraph ν) := do
  let (bound, v) ← bind g .global name
  let binding ← bound.getVariable? v
  if binding.isDeclared then return g else modifyVariable bound v f

def applyConfigured (g : ScopeGraph ν) (entry : ν × GlobalValue) : Option (ScopeGraph ν) :=
  let (name, value) := entry
  if value.isOff then some g
  else
    configure g name fun v =>
      { v with
        writable := some value.isWritable
        implicitGlobalSetting := some value
        explicitGlobal := false
        explicitGlobalComments := [] }

def applyInlined (g : ScopeGraph ν) (entry : ν × InlineGlobal) : Option (ScopeGraph ν) :=
  let (name, inlined) := entry
  if inlined.value.isOff then some g
  else
    configure g name fun v =>
      { v with
        writable := some inlined.value.isWritable
        explicitGlobal := true
        explicitGlobalComments := inlined.comments }

def applyExported (g : ScopeGraph ν) (name : ν) : Option (ScopeGraph ν) := do
  match ← globalVariable? g name with
  | some v => modifyVariable g v fun v => { v with used := true, exported := true }
  | none => return g

def settleThrough (g : ScopeGraph ν) (r : ReferenceId) : Option (ScopeGraph ν) := do
  let reference ← g.getReference? r
  match ← globalVariable? g reference.name with
  | some v => link g r v
  | none => modifyScope g .global fun s => { s with through := s.through.push r }

def resolveThrough (g : ScopeGraph ν) : Option (ScopeGraph ν) := do
  let scope ← g.globalScope?
  let emptied ← modifyScope g .global fun s => { s with through := #[] }
  scope.through.toList.foldlM settleThrough emptied

def pruneImplicit (g : ScopeGraph ν) : Option (ScopeGraph ν) := do
  let scope ← g.globalScope?
  let isAbsent := fun name => (scope.table.get? name).isNone
  let left ← g.implicit.left.toList.filterM fun r =>
    (g.getReference? r).map fun reference => isAbsent reference.name
  return { g with
    implicit := {
      table := g.implicit.table.retain fun name _ => isAbsent name
      left := left.toArray } }

def finalize (g : ScopeGraph ν) (settings : GlobalSettings ν) : Option (ScopeGraph ν) := do
  let g ← settings.presets.foldlM (applyPreset settings.configured) g
  let g ← settings.configured.toList.foldlM applyConfigured g
  let g ← settings.inlined.toList.foldlM applyInlined g
  let g ← settings.exported.keys.foldlM applyExported g
  pruneImplicit (← resolveThrough g)

/-- The analysis of a file with checks. If an import stands in the wrong place, the steps before it
are taken nevertheless. -/
def analyze (names : NameTable) (t : Tree) (o : LanguageOptions) (envs : Environments) :
    Option (NameTable × Except ScopeError (ScopeGraph Name)) := do
  match ← outline t.kind? t.root o with
  | .error kind => return (names, .error (.rootNotProgram t.root kind.typeName))
  | .ok outline =>
    let reached := Step.reached outline
    let names := names.addAll (reached.filterMap Step.name?)
    match outline.findSome? Step.misplacedImport? with
    | some declaration =>
      let _ ← run t {} (reached.map (.mapName names.handle))
      return (names, .error (.importOutsideModule declaration))
    | none =>
      let settings := GlobalSettings.ofFile o envs t.comments
      let names := names.addAll settings.names
      let walked ← run t {} (outline.map (.mapName names.handle))
      let g ← finalize walked.graph (settings.mapNames names.handle)
      return (names, .ok g)

end Definitions

variable {t : Tree} {c : Cursor ν} {g g' : ScopeGraph ν}

section Walk

/-- A step with checks ends at the cursor of the one without, which is in range. -/
structure SafeStep (t : Tree) (x : Option (Cursor ν)) (c : Cursor ν) : Prop where
  eq : x = some c
  inRange : c.InRange t

/-- A change to the graph alone is a safe step. -/
theorem SafeStep.of_safe (h : c.InRange t) {x : Option (ScopeGraph ν)}
    (hsafe : Safe t c.graph x g') :
    SafeStep t (do return { c with graph := ← x }) { c with graph := g' } where
  eq := by rw [hsafe.eq]; rfl
  inRange := {
    graph := hsafe.inRange
    opened := fun s hs => hsafe.lt_scopes (h.opened s hs)
    global := hsafe.lt_scopes h.global }

/-- Closing the innermost scopes finds each of them, and each scope around them. -/
theorem safe_leaveAll (block : NodeId) {opened : List ScopeId}
    (h : (⟨g, opened⟩ : Cursor ν).InRange t) :
    SafeStep t (leaveAll t block g opened) (Cursor.leaveAll t block g opened) := by
  induction opened generalizing g with
  | nil => exact ⟨rfl, h⟩
  | cons s outer ih =>
    have hs := h.opened s (List.mem_cons_self ..)
    obtain ⟨scope, hscope⟩ := ScopeGraph.exists_getScope? hs
    have hclose := safe_closeScope h.graph hs
    have houter : (⟨g.closeScope t s, outer⟩ : Cursor ν).InRange t := {
      graph := hclose.inRange
      opened := fun s' hs' =>
        hclose.lt_scopes (h.opened s' (List.mem_cons_of_mem s hs'))
      global := hclose.lt_scopes h.global }
    simp only [leaveAll, Cursor.leaveAll, hscope, hclose.eq, Option.bind_eq_bind, Option.bind_some,
      Option.any_some, decide_eq_true_eq]
    split
    · exact ih houter
    · exact ⟨rfl, h⟩

theorem place_eq (h : c.InRange t) (p : Place) : place c p = some (c.place p) := by
  cases p with
  | current => rfl
  | variableScope =>
    obtain ⟨scope, hscope⟩ := ScopeGraph.exists_getScope? h.current_lt
    rw [place, Cursor.place, ScopeGraph.variableScope, hscope]
    rfl

theorem place_lt (h : c.InRange t) (p : Place) : (c.place p).index < c.graph.scopes.size := by
  cases p with
  | current => exact h.current_lt
  | variableScope =>
    obtain ⟨scope, hscope⟩ := ScopeGraph.exists_getScope? h.current_lt
    rw [Cursor.place, ScopeGraph.variableScope, hscope]
    exact (h.graph.of_getScope? hscope).variableScope

/-- A reference made in the current scope names nodes and scopes in range. -/
theorem reference_fits (h : c.InRange t) {o : Occurrence ν} (ho : t.Uses o) :
    (c.reference o).Fits ((c.graph.addReference (c.reference o)).sizes t) := by
  obtain ⟨hidentifier, hexpr, hassignment⟩ := ho.contains
  rw [sizes_addReference]
  exact {
    id := Nat.lt_succ_self _
    identifier := of_decide_eq_true hidentifier
    origin := h.current_lt
    resolved := nofun
    writeExpr := fun m hm => of_decide_eq_true (hexpr m hm)
    site := fun site hsite => by
      rw [Cursor.reference] at hsite
      split at hsite
      · cases hsite
      · obtain ⟨m, hm, rfl⟩ := Option.map_eq_some_iff.1 hsite
        exact ⟨of_decide_eq_true hidentifier, of_decide_eq_true (hassignment m hm)⟩ }

/-- A step that belongs to the tree looks up nothing that is missing. -/
theorem safe_step (h : c.InRange t) {step : Step ν} (hstep : step.IsGrounded t) :
    SafeStep t (Checked.step t c step) (c.step t step) := by
  cases step with
  | enter kind block strict =>
    have hupper (u : ScopeId) (hu : u ∈ c.opened.head?) := h.opened u (List.mem_of_head? hu)
    have hopened := safe_openScope h.graph kind hstep strict hupper
    have hsize := c.graph.size_scopes_openScope kind block strict c.opened.head?
    refine ⟨?_, hopened.inRange, List.forall_mem_cons.2 ⟨?_, fun s hs => ?_⟩, ?_⟩
    · rw [Checked.step, hopened.eq]
      rfl
    · exact Nat.lt_of_lt_of_eq (Nat.lt_succ_self _) hsize.symm
    · exact hopened.lt_scopes (h.opened s hs)
    · exact hopened.lt_scopes h.global
  | leave block => exact safe_leaveAll block h
  | declare p name definition =>
    have hdefinition (d : Definition) (hd : d ∈ definition) : d.Fits (c.graph.sizes t) :=
      (hstep d hd).fits c.graph
    rw [Checked.step, place_eq h]
    exact .of_safe h (safe_declare h.graph (place_lt h p) name hdefinition)
  | refer o =>
    obtain ⟨scope, hscope⟩ := ScopeGraph.exists_getScope? h.current_lt
    rw [Checked.step, hscope]
    exact .of_safe h (safe_addReference h.graph (reference_fits h hstep))
  | this =>
    obtain ⟨scope, hscope⟩ := ScopeGraph.exists_getScope? h.current_lt
    have hfits := h.graph.of_getScope? hscope
    rw [Checked.step, hscope, Cursor.step, ScopeGraph.variableScope, hscope]
    exact .of_safe h (safe_modifyScope h.graph hfits.variableScope fun s hs => { hs with })
  | misplacedImport n => exact ⟨rfl, h⟩

/-- A walk is safe from a cursor in range on. -/
theorem safe_run (h : c.InRange t) {steps : List (Step ν)}
    (hsteps : ∀ step ∈ steps, step.IsGrounded t) : SafeStep t (run t c steps) (c.run t steps) := by
  induction steps generalizing c with
  | nil => exact ⟨rfl, h⟩
  | cons step steps ih =>
    obtain ⟨hstep, hsteps⟩ := List.forall_mem_cons.1 hsteps
    have hfirst := safe_step h hstep
    have hrest := ih hfirst.inRange hsteps
    refine ⟨?_, hrest.inRange⟩
    rw [run, List.foldlM_cons, hfirst.eq]
    exact hrest.eq

/-- The walk of a program begins with the global scope. -/
theorem safe_run_enter {root : NodeId} (hroot : t.contains root) (strict : Bool)
    {steps : List (Step ν)} (hsteps : ∀ step ∈ steps, step.IsGrounded t) :
    SafeStep t (run t {} (.enter .global root strict :: steps))
      (Cursor.run t {} (.enter .global root strict :: steps)) := by
  have hopened : Safe t ({} : ScopeGraph ν) (openScope t {} .global root strict none)
      (ScopeGraph.openScope {} .global root strict none) :=
    safe_openScope (ScopeGraph.inRange_empty t) .global hroot strict nofun
  have hfirst : Checked.step t {} (.enter .global root strict) =
      some (Cursor.step t ({} : Cursor ν) (.enter .global root strict)) := by
    show (openScope t ({} : ScopeGraph ν) .global root strict none).bind _ = _
    rw [hopened.eq]
    rfl
  have hglobal : (Cursor.step t ({} : Cursor ν) (.enter .global root strict)).InRange t := {
    graph := hopened.inRange
    opened := List.forall_mem_singleton.2 Nat.zero_lt_one
    global := Nat.zero_lt_one }
  have hrest := safe_run hglobal hsteps
  refine ⟨?_, hrest.inRange⟩
  rw [run, List.foldlM_cons, hfirst]
  exact hrest.eq

end Walk

section Globals

variable (h : g.InRange t) (hglobal : 0 < g.scopes.size)

include hglobal in
theorem globalVariable?_eq (name : ν) :
    globalVariable? g name = some (g.globalVariable? name) :=
  inTable?_eq (s := .global) hglobal name

include h hglobal

theorem safe_applyPreset (configured : OrderedMap ν GlobalValue) (preset : ν × Bool) :
    Safe t g (applyPreset configured g preset) (g.applyPreset configured preset) := by
  obtain ⟨name, isWritable⟩ := preset
  have hbound := safe_bind h (s := .global) hglobal name
  simp only [applyPreset, ScopeGraph.applyPreset, globalVariable?_eq hglobal, Option.bind_eq_bind,
    Option.bind_some]
  split
  · exact .pure h
  · refine hbound.bind (safe_modifyVariable hbound.safe.inRange hbound.lt ?_)
    exact fun v hv => { hv with }

/-- The name is bound also if the variable keeps its settings. -/
theorem safe_configure (name : ν) {f : Variable ν → Variable ν}
    (hf : ∀ b, g.sizes t ≤ b → ∀ v, v.Fits b → (f v).Fits b) :
    Safe t g (configure g name f) (g.configure name f) := by
  have hbound := safe_bind h (s := .global) hglobal name
  obtain ⟨binding, hbinding⟩ := ScopeGraph.exists_getVariable? hbound.lt
  unfold configure ScopeGraph.configure
  simp only [hbound.eq, hbinding, Option.bind_eq_bind, Option.bind_some, Option.any_some]
  split
  · exact .pure h
  · exact hbound.safe.trans (safe_modifyVariable hbound.safe.inRange hbound.lt
      (hf _ hbound.safe.le))

theorem safe_applyConfigured (entry : ν × GlobalValue) :
    Safe t g (applyConfigured g entry) (g.applyConfigured entry) := by
  unfold applyConfigured ScopeGraph.applyConfigured
  dsimp only
  split
  · exact .pure h
  · exact safe_configure h hglobal entry.1 fun b _ v hv => { hv with
      comments := List.forall_mem_nil _ }

theorem safe_applyInlined {entry : ν × InlineGlobal} (hentry : entry.2.Below t.comments.size) :
    Safe t g (applyInlined g entry) (g.applyInlined entry) := by
  unfold applyInlined ScopeGraph.applyInlined
  dsimp only
  split
  · exact .pure h
  · exact safe_configure h hglobal entry.1 fun b hb v hv =>
      { hv with comments := fun c hc => Nat.lt_of_lt_of_le (hentry c hc) hb.comments }

theorem safe_applyExported (name : ν) :
    Safe t g (applyExported g name) (g.applyExported name) := by
  simp only [applyExported, ScopeGraph.applyExported, globalVariable?_eq hglobal,
    Option.bind_eq_bind, Option.bind_some]
  cases hname : g.globalVariable? name with
  | none => exact .pure h
  | some v => exact safe_modifyVariable h (h.of_inTable? hname) fun v hv => { hv with }

theorem safe_settleThrough {r : ReferenceId} (hr : r.index < g.references.size) :
    Safe t g (settleThrough g r) (g.settleThrough r) := by
  obtain ⟨reference, hreference⟩ := ScopeGraph.exists_getReference? hr
  simp only [settleThrough, ScopeGraph.settleThrough, globalVariable?_eq hglobal, hreference,
    Option.bind_eq_bind, Option.bind_some]
  cases hname : g.globalVariable? reference.name with
  | none =>
    exact safe_modifyScope h (s := .global) hglobal fun s hs =>
      { hs with through := forall_mem_push hs.through hr }
  | some v => exact safe_link h hr (h.of_inTable? hname)

/-- Every reference left over by the global scope exists when it is looked up. -/
theorem safe_resolveThrough : Safe t g (resolveThrough g) g.resolveThrough := by
  obtain ⟨scope, hscope⟩ : ∃ scope, g.globalScope? = some scope :=
    ScopeGraph.exists_getScope? hglobal
  have hemptied := safe_modifyScope h (s := .global) hglobal
    (f := fun s => { s with through := #[] }) fun s hs => { hs with through := nofun }
  rw [resolveThrough, ScopeGraph.resolveThrough, hscope, Option.bind_eq_bind, Option.bind_some]
  exact hemptied.bind (safe_foldlM hemptied.inRange (hemptied.lt_scopes hglobal)
    (fun r hr => Nat.lt_of_lt_of_le ((h.of_getScope? hscope).through r hr) hemptied.le.references)
    fun g' hg' hglobal r hr => safe_settleThrough hg' hglobal hr)

omit h hglobal [DecidableEq ν] in
/-- A filter whose tests all succeed is the plain filter. -/
theorem filterM_eq_some {α : Type} {l : List α} {p' : α → Option Bool} {p : α → Bool}
    (h : ∀ x ∈ l, p' x = some (p x)) : l.filterM p' = some (l.filter p) := by
  have haux (acc : List α) : l.filterAuxM p' acc = some ((l.filter p).reverse ++ acc) := by
    induction l generalizing acc with
    | nil => rfl
    | cons x l ih =>
      obtain ⟨hx, hl⟩ := List.forall_mem_cons.1 h
      rw [List.filterAuxM, hx, Option.bind_eq_bind, Option.bind_some, ih hl]
      cases hp : p x <;> simp [hp]
  rw [List.filterM, haux, List.append_nil]
  exact congrArg some (List.reverse_reverse _)

theorem safe_pruneImplicit : Safe t g (pruneImplicit g) g.pruneImplicit := by
  obtain ⟨scope, hscope⟩ : ∃ scope, g.globalScope? = some scope :=
    ScopeGraph.exists_getScope? hglobal
  have hname (name : ν) : g.globalVariable? name = scope.table.get? name := by
    rw [ScopeGraph.globalVariable?, ScopeGraph.inTable?, ← ScopeGraph.globalScope?, hscope]
    rfl
  have hleft : g.implicit.left.toList.filterM (fun r =>
      (g.getReference? r).map fun reference => (scope.table.get? reference.name).isNone) =
      some (g.implicit.left.toList.filter fun r =>
        (g.getReference? r).any fun reference => (scope.table.get? reference.name).isNone) := by
    refine filterM_eq_some fun r hr => ?_
    obtain ⟨reference, hreference⟩ :=
      ScopeGraph.exists_getReference? (h.left r (Array.mem_toList_iff.1 hr))
    rw [hreference, Option.map_some, Option.any_some]
  refine .of_le h ?_ (Sizes.le_refl _) fun hfits => { hfits with
    implicit := hfits.implicit.retain _
    left := fun r hr => hfits.left r (Array.mem_filter.1 hr).1 }
  simp only [pruneImplicit, ScopeGraph.pruneImplicit, hscope, hleft, hname, Option.bind_eq_bind,
    Option.bind_some, ← Array.toList_filter]
  rfl

/-- The settings of a file look up nothing that is missing. -/
theorem safe_finalize {settings : GlobalSettings ν} (hsettings : settings.InRange t) :
    Safe t g (finalize g settings) (g.finalize settings) := by
  have hpresets : Safe t g (settings.presets.foldlM (applyPreset settings.configured) g) _ :=
    .foldlM h fun g' hg' hle preset _ =>
      safe_applyPreset hg' (Nat.lt_of_lt_of_le hglobal hle.scopes) settings.configured preset
  have hglobal := hpresets.lt_scopes hglobal
  refine hpresets.bind ?_
  have hconfigured : Safe t _ (settings.configured.toList.foldlM applyConfigured _) _ :=
    .foldlM hpresets.inRange fun g' hg' hle entry _ =>
      safe_applyConfigured hg' (Nat.lt_of_lt_of_le hglobal hle.scopes) entry
  have hglobal := hconfigured.lt_scopes hglobal
  refine hconfigured.bind ?_
  have hinlined : Safe t _ (settings.inlined.toList.foldlM applyInlined _) _ :=
    .foldlM hconfigured.inRange fun g' hg' hle entry hentry =>
      safe_applyInlined hg' (Nat.lt_of_lt_of_le hglobal hle.scopes)
        (hsettings.of_mem_toList hentry)
  have hglobal := hinlined.lt_scopes hglobal
  refine hinlined.bind ?_
  have hexported : Safe t _ (settings.exported.keys.foldlM applyExported _) _ :=
    .foldlM hinlined.inRange fun g' hg' hle name _ =>
      safe_applyExported hg' (Nat.lt_of_lt_of_le hglobal hle.scopes) name
  have hglobal := hexported.lt_scopes hglobal
  refine hexported.bind ?_
  have hresolved := safe_resolveThrough hexported.inRange hglobal
  exact hresolved.bind
    (safe_pruneImplicit hresolved.inRange (hresolved.lt_scopes hglobal))

end Globals

section Analyze

variable {o : LanguageOptions} {outline : Outline}

/-- The walk along the outline of a program, as far as it goes. -/
theorem safe_walk (houtline : t.outline? o = some outline) {steps : Outline}
    (hsteps : steps ⊆ outline) (hhead : steps.head? = outline.head?) (f : String → ν) :
    SafeStep t (run t {} (steps.map (.mapName f))) (Cursor.run t {} (steps.map (.mapName f))) := by
  have hgrounded (step : Step String) (hstep : step ∈ steps) : (step.mapName f).IsGrounded t :=
    Step.isGrounded_mapName f (grounded_of_mem_outline houtline (hsteps hstep))
  obtain ⟨strict, rest, rfl, -, -⟩ := Tree.outline?_eq_some houtline
  cases steps with
  | nil => cases hhead
  | cons step steps =>
    obtain rfl := Option.some.inj hhead
    exact safe_run_enter (decide_eq_true t.root_lt) strict (List.forall_mem_map.2
      fun step hstep => hgrounded step (List.mem_cons_of_mem _ hstep))

theorem head?_reached (houtline : t.outline? o = some outline) :
    (Step.reached outline).head? = outline.head? := by
  obtain ⟨strict, rest, rfl, -, -⟩ := Tree.outline?_eq_some houtline
  rfl

/-- The graph of a program is safe to build and to finish. -/
theorem safe_ofOutline (houtline : t.outline? o = some outline) {settings : GlobalSettings ν}
    (hsettings : settings.InRange t) (f : String → ν) :
    let walked := Cursor.run t {} (outline.map (.mapName f))
    SafeStep t (run t {} (outline.map (.mapName f))) walked ∧
      Safe t walked.graph (finalize walked.graph settings) (walked.graph.finalize settings) := by
  have hwalk := safe_walk houtline (List.Subset.refl outline) rfl f
  exact ⟨hwalk, safe_finalize hwalk.inRange.graph hwalk.inRange.global hsettings⟩

/-- No check fails on the way from a tree to its scope graph. -/
theorem analyze_eq (names : NameTable) (t : Tree) (o : LanguageOptions) (envs : Environments) :
    analyze names t o envs = some (LexicalScope.analyze names t o envs) := by
  rw [analyze, outline_eq, LexicalScope.analyze, Option.bind_eq_bind, Option.bind_some]
  cases houtline : t.outline? o with
  | none => rfl
  | some outline =>
    dsimp only [Option.elim_some]
    generalize names.addAll ((Step.reached outline).filterMap Step.name?) = names
    cases outline.findSome? Step.misplacedImport? with
    | some declaration =>
      have hwalk : SafeStep t (run t {} ((Step.reached outline).map (.mapName names.handle))) _ :=
        safe_walk houtline (List.takeWhile_subset _) (head?_reached houtline) names.handle
      simp only [hwalk.eq]
      rfl
    | none =>
      generalize names.addAll (GlobalSettings.ofFile o envs t.comments).names = names
      obtain ⟨hwalk, hfinal⟩ := safe_ofOutline houtline
        ((GlobalSettings.inRange_ofFile t o envs).mapNames names.handle) names.handle
      simp only [hwalk.eq, Option.bind_eq_bind, Option.bind_some, hfinal.eq]
      rfl

/-- Everything in the result of an analysis is in range, and there is a global scope. -/
theorem inRange_of_analyze {names names' : NameTable} {envs : Environments} {g : ScopeGraph Name}
    (hg : LexicalScope.analyze names t o envs = (names', .ok g)) :
    g.InRange t ∧ 0 < g.scopes.size := by
  obtain ⟨outline, houtline, -, rfl⟩ := outline?_of_analyze hg
  obtain ⟨hwalk, hfinal⟩ := safe_ofOutline houtline
    ((GlobalSettings.inRange_ofFile t o envs).mapNames names'.handle) names'.handle
  rw [ScopeGraph.ofOutline, ScopeGraph.ofSteps]
  exact ⟨hfinal.inRange, hfinal.lt_scopes hwalk.inRange.global⟩

end Analyze

end Checked

end LexicalScope
