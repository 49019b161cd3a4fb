import LexicalScope.Proofs.Frame
import LexicalScope.Scope.Globals

/-!
What closing scopes and applying settings keep. Both are made of a few kinds of small changes, so
a property that every small change keeps is kept altogether. The tree of scopes is one such
thing: only opening a scope changes it.
-/
namespace LexicalScope

variable {ν : Type}

/-- What only opening scopes decides about a scope. -/
def Scope.treeNode (s : Scope ν) :
    ScopeId × Bool × Array ScopeId × ScopeKind × Option ScopeId × ScopeId × NodeId :=
  (s.id, s.isStrict, s.children, s.position)

def Scope.entries (s : Scope ν) : Array ReferenceId × Bool :=
  (s.references, s.thisFound)

def Variable.declaration (v : Variable ν) :
    VariableId × ν × ScopeId × Array NodeId × Array Definition :=
  (v.id, v.name, v.scope, v.identifiers, v.definitions)

def Variable.bound (v : Variable ν) : Array ReferenceId × Bool :=
  (v.references, v.tainted)

/-- What configuration leaves of a variable. -/
def Variable.sourcePart (v : Variable ν) :
    (VariableId × ν × ScopeId × Array NodeId × Array Definition) × Array ReferenceId × Bool :=
  (v.declaration, v.bound)

namespace ScopeGraph

/-- A property that is kept when scopes hand on references, when globals without declarations and
implicit globals come in, and when implicit globals are dropped. -/
structure Unaffected [DecidableEq ν] (Q : ScopeGraph ν → Prop) : Prop where
  modifyScope : ∀ {g s} {f : Scope ν → Scope ν}, (∀ x, (f x).treeNode = x.treeNode) →
    (∀ x, (f x).table = x.table) → (∀ x, (f x).entries = x.entries) →
    Q g → Q (g.modifyScope s f)
  bindGlobal : ∀ {g name}, Q g → Q (g.bind .global name).1
  /-- A reference enters the global that it creates. -/
  declareImplicit : ∀ {g r reference site d}, g.getReference? r = some reference →
    reference.site = some site → d.kind = .implicitGlobal → d.name = site.pattern →
    Q g → Q (g.declareImplicit reference.name d)
  /-- Only implicit globals whose names the global table has are dropped. -/
  setImplicit : ∀ {g implicit},
    (∀ name v, implicit.table.get? name = some v → g.implicit.table.get? name = some v) →
    (∀ name v, g.implicit.table.get? name = some v →
      implicit.table.get? name = some v ∨ (g.globalVariable? name).isSome) →
    Q g → Q { g with implicit }

/-- A property that is also kept when references are linked and globals are configured. -/
structure Steady [DecidableEq ν] (Q : ScopeGraph ν → Prop) : Prop extends Unaffected Q where
  link : ∀ {g} r v, Q g → Q (g.link r v)
  setUp : ∀ {g v} {f : Variable ν → Variable ν}, (∀ x, (f x).sourcePart = x.sourcePart) →
    Q g → Q (g.modifyVariable v f)

theorem foldl_induction {α : Type} {Q : ScopeGraph ν → Prop}
    {step : ScopeGraph ν → α → ScopeGraph ν} (hstep : ∀ {g} x, Q g → Q (step g x)) (l : List α)
    {g : ScopeGraph ν} (h : Q g) : Q (l.foldl step g) := by
  induction l generalizing g with
  | nil => exact h
  | cons x l ih => exact ih (hstep x h)

namespace Steady

variable [DecidableEq ν] {Q : ScopeGraph ν → Prop} (hQ : Steady Q) {g : ScopeGraph ν}
include hQ

/-- A change to what a scope hands on. -/
theorem handOn {f : Scope ν → Scope ν} (hf : ∀ x, (f x).treeNode = x.treeNode ∧
    (f x).table = x.table ∧ (f x).entries = x.entries) (s : ScopeId) (h : Q g) :
    Q (g.modifyScope s f) :=
  hQ.modifyScope (fun x => (hf x).1) (fun x => (hf x).2.1) (fun x => (hf x).2.2) h

theorem delegate (s : ScopeId) (r : ReferenceId) (h : Q g) : Q (g.delegate s r) := by
  unfold ScopeGraph.delegate
  refine hQ.handOn (by exact fun _ => ⟨rfl, rfl, rfl⟩) s ?_
  cases (g.getScope? s).bind (·.upper) with
  | none => exact h
  | some u => exact hQ.handOn (by exact fun _ => ⟨rfl, rfl, rfl⟩) u h

theorem settle (t : Tree) (s : ScopeId) (r : ReferenceId) (h : Q g) :
    Q (ScopeGraph.settle t s g r) := by
  unfold ScopeGraph.settle
  split
  · exact hQ.link r _ h
  · exact hQ.delegate s r h

theorem declareSite (s : ScopeId) (r : ReferenceId) (h : Q g) :
    Q (ScopeGraph.declareSite s g r) := by
  unfold ScopeGraph.declareSite
  split
  · next href =>
    split
    · exact h
    · exact hQ.declareImplicit href rfl rfl rfl h
  · exact h

theorem settleGlobal (t : Tree) (s : ScopeId) (r : ReferenceId) (h : Q g) :
    Q (ScopeGraph.settleGlobal t s g r) := by
  unfold ScopeGraph.settleGlobal
  split
  · exact hQ.settle t s r h
  · exact hQ.handOn (by exact fun _ => ⟨rfl, rfl, rfl⟩) s h

/-- Closing a scope other than a `with` body. -/
theorem closeScope (t : Tree) (s : ScopeId)
    (hkind : ∀ scope, g.getScope? s = some scope → scope.kind ≠ .withBody) (h : Q g) :
    Q (g.closeScope t s) := by
  unfold ScopeGraph.closeScope closeGlobal
  simp only [← Array.foldl_toList]
  split
  · exact h
  · next scope hs =>
    have hempty : Q (g.modifyScope s fun s => { s with pending := #[] }) :=
      hQ.handOn (by exact fun _ => ⟨rfl, rfl, rfl⟩) s h
    split
    · exact foldl_induction (hQ.settleGlobal t s) _
        (hQ.setImplicit (by exact fun _ _ h => h) (by exact fun _ _ h => .inl h)
          (foldl_induction (hQ.declareSite s) _ hempty))
    · next hwith => exact absurd hwith (hkind scope hs)
    · exact foldl_induction (hQ.settle t s) _ hempty

theorem configure (name : ν) {f : Variable ν → Variable ν}
    (hf : ∀ x, (f x).sourcePart = x.sourcePart) (h : Q g) : Q (g.configure name f) := by
  unfold ScopeGraph.configure
  dsimp only
  split
  · exact h
  · exact hQ.setUp hf (hQ.bindGlobal h)

theorem applyPreset (configured : OrderedMap ν GlobalValue) (preset : ν × Bool) (h : Q g) :
    Q (ScopeGraph.applyPreset configured g preset) := by
  unfold ScopeGraph.applyPreset
  dsimp only
  split
  · exact h
  · exact hQ.setUp (by exact fun _ => rfl) (hQ.bindGlobal h)

theorem applyConfigured (entry : ν × GlobalValue) (h : Q g) :
    Q (ScopeGraph.applyConfigured g entry) := by
  unfold ScopeGraph.applyConfigured
  dsimp only
  split
  · exact h
  · exact hQ.configure entry.1 (by exact fun _ => rfl) h

theorem applyInlined (entry : ν × InlineGlobal) (h : Q g) :
    Q (ScopeGraph.applyInlined g entry) := by
  unfold ScopeGraph.applyInlined
  dsimp only
  split
  · exact h
  · exact hQ.configure entry.1 (by exact fun _ => rfl) h

theorem applyExported (name : ν) (h : Q g) : Q (ScopeGraph.applyExported g name) := by
  unfold ScopeGraph.applyExported
  split
  · exact hQ.setUp (by exact fun _ => rfl) h
  · exact h

theorem settleThrough (r : ReferenceId) (h : Q g) : Q (ScopeGraph.settleThrough g r) := by
  unfold ScopeGraph.settleThrough
  split
  · exact hQ.link r _ h
  · exact hQ.handOn (by exact fun _ => ⟨rfl, rfl, rfl⟩) .global h

theorem pruneImplicit (h : Q g) : Q g.pruneImplicit := by
  refine hQ.setImplicit (fun name v hv => ?_) (fun name v hv => ?_) h
  · rw [OrderedMap.get?_retain, Option.filter_eq_some_iff] at hv
    exact hv.1
  · rw [OrderedMap.get?_retain, hv]
    cases hname : g.globalVariable? name with
    | none => exact .inl (by simp [hname])
    | some w => exact .inr rfl

/-- What closing and configuring keep holds of the finished graph. -/
theorem finalize (settings : GlobalSettings ν) (h : Q g) : Q (g.finalize settings) := by
  have hpresets := foldl_induction (hQ.applyPreset settings.configured) settings.presets h
  have hconfigured := foldl_induction hQ.applyConfigured settings.configured.toList hpresets
  have hinlined := foldl_induction hQ.applyInlined settings.inlined.toList hconfigured
  have hexported := foldl_induction hQ.applyExported settings.exported.keys hinlined
  refine hQ.pruneImplicit ?_
  unfold resolveThrough
  rw [← Array.foldl_toList]
  exact foldl_induction hQ.settleThrough _
    (hQ.handOn (by exact fun _ => ⟨rfl, rfl, rfl⟩) .global hexported)

end Steady

/-- A property that is also kept when references are tainted, and by any other change to what
references and variables are bound to. -/
structure Stable [DecidableEq ν] (Q : ScopeGraph ν → Prop) : Prop extends Unaffected Q where
  modifyReference : ∀ {g r} {f : Reference ν → Reference ν},
    (∀ x, (f x).unlinked = x.unlinked) → Q g → Q (g.modifyReference r f)
  modifyVariable : ∀ {g v} {f : Variable ν → Variable ν},
    (∀ x, (f x).declaration = x.declaration) → Q g → Q (g.modifyVariable v f)

/-- A `with` body taints what waits in it and hands it on. -/
theorem closeScope_of_withBody [DecidableEq ν] {g : ScopeGraph ν} {s : ScopeId} {scope : Scope ν}
    (hs : g.getScope? s = some scope) (hkind : scope.kind = .withBody) (t : Tree) :
    g.closeScope t s = scope.pending.toList.foldl (fun g r => (g.taint r).delegate s r)
      (g.modifyScope s fun s => { s with pending := #[] }) := by
  rw [closeScope, hs, Array.foldl_toList]
  simp only [hkind]

namespace Stable

variable [DecidableEq ν] {Q : ScopeGraph ν → Prop} (hQ : Stable Q) {g : ScopeGraph ν}
include hQ

theorem steady : Steady Q := {
  hQ.toUnaffected with
  link := fun _ _ h =>
    hQ.modifyVariable (by exact fun _ => rfl) (hQ.modifyReference (by exact fun _ => rfl) h)
  setUp := fun hf h => hQ.modifyVariable (fun x => congrArg (·.1) (hf x)) h }

theorem closeScope (t : Tree) (s : ScopeId) (h : Q g) : Q (g.closeScope t s) := by
  by_cases hwith : ∃ scope, g.getScope? s = some scope ∧ scope.kind = .withBody
  · obtain ⟨scope, hs, hkind⟩ := hwith
    rw [closeScope_of_withBody hs hkind]
    refine foldl_induction (fun r h => hQ.steady.delegate s r ?_) _
      (hQ.steady.handOn (by exact fun _ => ⟨rfl, rfl, rfl⟩) s h)
    exact hQ.modifyReference (by exact fun _ => rfl) h
  · exact hQ.steady.closeScope t s (fun scope hs hkind => hwith ⟨scope, hs, hkind⟩) h

/-- All that comes after the walk. -/
theorem conclude (t : Tree) (settings : GlobalSettings ν) (h : Q g) :
    Q ((g.closeScope t .global).finalize settings) :=
  hQ.steady.finalize settings (hQ.closeScope t .global h)

end Stable

/-- Both graphs have the same tree of scopes. -/
structure SameTree (g g' : ScopeGraph ν) : Prop where
  treeNode_eq : ∀ s, (g'.getScope? s).map Scope.treeNode = (g.getScope? s).map Scope.treeNode
  anchors_eq : g'.anchors = g.anchors

namespace SameTree

variable {g g' g'' : ScopeGraph ν}

theorem refl (g : ScopeGraph ν) : g.SameTree g :=
  ⟨fun _ => rfl, rfl⟩

theorem trans (h : g.SameTree g') (h' : g'.SameTree g'') : g.SameTree g'' :=
  ⟨fun s => (h'.treeNode_eq s).trans (h.treeNode_eq s), h'.anchors_eq.trans h.anchors_eq⟩

theorem modifyScope {f : Scope ν → Scope ν} (hf : ∀ s, (f s).treeNode = s.treeNode)
    (s : ScopeId) : g.SameTree (g.modifyScope s f) := by
  refine ⟨fun x => ?_, rfl⟩
  rw [getScope?_modifyScope]
  split
  · cases g.getScope? x <;> simp [hf]
  · rfl

theorem addReference (g : ScopeGraph ν) (r : Reference ν) : g.SameTree (g.addReference r) where
  treeNode_eq x := by
    rw [getScope?_addReference]
    split
    · cases g.getScope? x <;> rfl
    · rfl
  anchors_eq := rfl

section Places

variable (h : g.SameTree g')
include h

theorem samePositions : g.SamePositions g' := by
  intro s
  have hposition := congrArg (Option.map (·.2.2.2)) (h.treeNode_eq s)
  simp only [Option.map_map] at hposition
  exact hposition

theorem exists_getScope? {s : ScopeId} {scope' : Scope ν} (hs : g'.getScope? s = some scope') :
    ∃ scope, g.getScope? s = some scope ∧ scope.treeNode = scope'.treeNode := by
  have hmap := h.treeNode_eq s
  rw [hs, Option.map_some] at hmap
  exact Option.map_eq_some_iff.1 hmap.symm

end Places

variable [DecidableEq ν]

/-- Binding a name leaves the tree of scopes. -/
theorem bind (g : ScopeGraph ν) (s : ScopeId) (name : ν) : g.SameTree (g.bind s name).1 where
  treeNode_eq x := by
    rw [getScope?_bind]
    split
    · cases g.getScope? x <;> rfl
    · rfl
  anchors_eq := by
    unfold ScopeGraph.bind
    split <;> rfl

theorem declare (g : ScopeGraph ν) (s : ScopeId) (name : ν) (d : Option Definition) :
    g.SameTree (g.declare s name d) := by
  have hbind := bind g s name
  cases d with
  | none => exact hbind
  | some d => exact hbind.trans ⟨fun _ => rfl, rfl⟩

theorem declareImplicit (g : ScopeGraph ν) (name : ν) (d : Definition) :
    g.SameTree (g.declareImplicit name d) := by
  unfold ScopeGraph.declareImplicit bindImplicit
  cases g.implicit.table.get? name <;> exact ⟨fun _ => rfl, rfl⟩

theorem stable (g₀ : ScopeGraph ν) : Stable g₀.SameTree where
  modifyScope hf _ _ h := h.trans (.modifyScope hf _)
  modifyReference _ h := h.trans ⟨fun _ => rfl, rfl⟩
  modifyVariable _ h := h.trans ⟨fun _ => rfl, rfl⟩
  bindGlobal h := h.trans (.bind _ _ _)
  declareImplicit _ _ _ _ h := h.trans (.declareImplicit _ _ _)
  setImplicit _ _ h := h.trans ⟨fun _ => rfl, rfl⟩

theorem closeScope (t : Tree) (g : ScopeGraph ν) (s : ScopeId) : g.SameTree (g.closeScope t s) :=
  (stable g).closeScope t s (refl g)

theorem conclude (t : Tree) (g : ScopeGraph ν) (settings : GlobalSettings ν) :
    g.SameTree ((g.closeScope t .global).finalize settings) :=
  (stable g).conclude t settings (refl g)

end SameTree

end ScopeGraph

end LexicalScope
