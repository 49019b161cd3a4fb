import LexicalScope.Analysis
import LexicalScope.Proofs.Renaming

/-!
Renaming scope graphs. Names are only ever compared, so each operation on a graph does the same
under other names, as long as distinct names stay distinct. Steps, walks and the settings of a file
are operations of this kind, hence the graph of a program is renamed by renaming its outline.
-/
namespace LexicalScope

variable {ν μ : Type}

/-- Mapping an array with one entry changed. -/
theorem map_modify {α β : Type} {F : α → β} {h : α → α} {h' : β → β} {xs : Array α} {i : Nat}
    (hh : ∀ x, xs[i]? = some x → h' (F x) = F (h x)) :
    (xs.modify i h).map F = (xs.map F).modify i h' := by
  apply Array.ext_getElem?
  intro j
  rw [Array.getElem?_map, Array.getElem?_modify, Array.getElem?_modify, Array.getElem?_map]
  split
  · next heq =>
    subst heq
    cases hx : xs[i]? with
    | none => rfl
    | some x => simp [hh x hx]
  · rfl

namespace ScopeGraph

variable [DecidableEq ν] [DecidableEq μ]

section LookUp

variable (g : ScopeGraph ν) (f : ν → μ)

@[simp] theorem getScope?_mapNames (s : ScopeId) :
    (g.mapNames f).getScope? s = (g.getScope? s).map (·.mapNames f) :=
  Array.getElem?_map

@[simp] theorem getVariable?_mapNames (v : VariableId) :
    (g.mapNames f).getVariable? v = (g.getVariable? v).map (·.mapName f) :=
  Array.getElem?_map

@[simp] theorem getReference?_mapNames (r : ReferenceId) :
    (g.mapNames f).getReference? r = (g.getReference? r).map (·.mapName f) :=
  Array.getElem?_map

@[simp] theorem nextScope_mapNames : (g.mapNames f).nextScope = g.nextScope :=
  congrArg ScopeId.mk Array.size_map

@[simp] theorem nextVariable_mapNames : (g.mapNames f).nextVariable = g.nextVariable :=
  congrArg VariableId.mk Array.size_map

@[simp] theorem nextReference_mapNames : (g.mapNames f).nextReference = g.nextReference :=
  congrArg ReferenceId.mk Array.size_map

theorem isStrict_mapNames (s : ScopeId) : (g.mapNames f).isStrict s = g.isStrict s := by
  rw [isStrict, getScope?_mapNames, Option.any_map]
  rfl

theorem variableScope_mapNames (s : ScopeId) :
    (g.mapNames f).variableScope s = g.variableScope s := by
  rw [variableScope, getScope?_mapNames, variableScope]
  cases g.getScope? s <;> rfl

end LookUp

section Operations

variable (f : ν → μ) (g : ScopeGraph ν)

/-- A change of a scope that respects names may come before or after a renaming. -/
theorem mapNames_modifyScope {s : ScopeId} {h : Scope ν → Scope ν} {h' : Scope μ → Scope μ}
    (hh : ∀ x, g.getScope? s = some x → h' (x.mapNames f) = (h x).mapNames f) :
    (g.modifyScope s h).mapNames f = (g.mapNames f).modifyScope s h' := by
  unfold modifyScope mapNames
  rw [map_modify hh]

theorem mapNames_modifyVariable {v : VariableId} {h : Variable ν → Variable ν}
    {h' : Variable μ → Variable μ} (hh : ∀ x, h' (x.mapName f) = (h x).mapName f) :
    (g.modifyVariable v h).mapNames f = (g.mapNames f).modifyVariable v h' := by
  unfold modifyVariable mapNames
  rw [map_modify fun x _ => hh x]

theorem mapNames_modifyReference {r : ReferenceId} {h : Reference ν → Reference ν}
    {h' : Reference μ → Reference μ} (hh : ∀ x, h' (x.mapName f) = (h x).mapName f) :
    (g.modifyReference r h).mapNames f = (g.mapNames f).modifyReference r h' := by
  unfold modifyReference mapNames
  rw [map_modify fun x _ => hh x]

/-- Opening a scope does not look at names. -/
theorem mapNames_openScope (kind : ScopeKind) (block : NodeId) (strict : Bool)
    (upper : Option ScopeId) :
    (g.openScope kind block strict upper).mapNames f =
      (g.mapNames f).openScope kind block strict upper := by
  have hstrict : (g.mapNames f).isStrict = g.isStrict := funext (g.isStrict_mapNames f)
  have hvariable : (g.mapNames f).variableScope = g.variableScope :=
    funext (g.variableScope_mapNames f)
  have hopen (entered : ScopeGraph ν) (entered' : ScopeGraph μ)
      (h : entered.mapNames f = entered') (scope : Scope ν) (anchors : MultiMap NodeId ScopeId) :
      ({ entered with scopes := entered.scopes.push scope, anchors } : ScopeGraph ν).mapNames f =
        { entered' with scopes := entered'.scopes.push (scope.mapNames f), anchors } := by
    subst h
    simp [mapNames]
  unfold openScope
  dsimp only
  rw [nextScope_mapNames, hstrict, hvariable, hopen _ _ rfl]
  cases upper with
  | none => rfl
  | some u =>
    have hentered : (g.modifyScope u fun s => { s with
          children := s.children.push g.nextScope }).mapNames f =
        (g.mapNames f).modifyScope u fun s => { s with children := s.children.push g.nextScope } :=
      mapNames_modifyScope f g fun _ _ => rfl
    dsimp only [Option.elim_some]
    rw [hentered]
    rfl

theorem mapNames_addVariable (s : ScopeId) (name : ν) :
    (g.addVariable s name).mapNames f = (g.mapNames f).addVariable s (f name) := by
  unfold addVariable
  rw [nextVariable_mapNames]
  simp [mapNames, Variable.mapName]

theorem mapNames_define (v : VariableId) (d : Definition) :
    (g.define v d).mapNames f = (g.mapNames f).define v d := by
  have hmodify : (g.modifyVariable v (·.define d)).mapNames f =
      (g.mapNames f).modifyVariable v (·.define d) :=
    mapNames_modifyVariable f g fun _ => rfl
  unfold define
  rw [← hmodify]
  rfl

theorem mapNames_addReference (r : Reference ν) :
    (g.addReference r).mapNames f = (g.mapNames f).addReference (r.mapName f) := by
  have hmodify : (g.modifyScope r.origin fun s => { s with
        references := s.references.push g.nextReference
        pending := s.pending.push g.nextReference }).mapNames f =
      (g.mapNames f).modifyScope r.origin fun s => { s with
        references := s.references.push g.nextReference
        pending := s.pending.push g.nextReference } :=
    mapNames_modifyScope f g fun _ _ => rfl
  have hpush : (g.references.push { r with id := g.nextReference }).map (Reference.mapName f) =
      (g.references.map (Reference.mapName f)).push { r.mapName f with id := g.nextReference } :=
    Array.map_push
  have hadd (entered : ScopeGraph ν) (references : Array (Reference ν)) :
      ({ entered with references } : ScopeGraph ν).mapNames f =
        { entered.mapNames f with references := references.map (Reference.mapName f) } :=
    rfl
  unfold addReference
  dsimp only
  rw [hadd, hmodify, hpush, nextReference_mapNames]
  rfl

theorem mapNames_link (r : ReferenceId) (v : VariableId) :
    (g.link r v).mapNames f = (g.mapNames f).link r v := by
  have htainted : ((g.mapNames f).getReference? r).any (·.tainted) =
      (g.getReference? r).any (·.tainted) := by
    rw [getReference?_mapNames, Option.any_map]
    rfl
  have hresolved : (g.modifyReference r fun r => { r with resolved := some v }).mapNames f =
      (g.mapNames f).modifyReference r fun r => { r with resolved := some v } :=
    mapNames_modifyReference f g fun _ => rfl
  unfold link
  rw [htainted, ← hresolved]
  exact mapNames_modifyVariable f _ fun _ => rfl

theorem mapNames_delegate (s : ScopeId) (r : ReferenceId) :
    (g.delegate s r).mapNames f = (g.mapNames f).delegate s r := by
  have hupper : ((g.mapNames f).getScope? s).bind (·.upper) = (g.getScope? s).bind (·.upper) := by
    rw [getScope?_mapNames, Option.bind_map]
    rfl
  have hhanded (u : ScopeId) :
      (g.modifyScope u fun u => { u with pending := u.pending.push r }).mapNames f =
        (g.mapNames f).modifyScope u fun u => { u with pending := u.pending.push r } :=
    mapNames_modifyScope f g fun _ _ => rfl
  unfold delegate
  rw [hupper]
  refine (mapNames_modifyScope f _ fun _ _ => rfl).trans (congrArg (modifyScope · s _) ?_)
  cases (g.getScope? s).bind (·.upper) with
  | none => rfl
  | some u => exact hhanded u

theorem functionBody?_mapNames (t : Tree) (s : ScopeId) :
    (g.mapNames f).functionBody? t s = g.functionBody? t s := by
  unfold functionBody?
  rw [getScope?_mapNames]
  cases g.getScope? s with
  | none => rfl
  | some scope =>
    obtain ⟨_, kind, _, _, _, _, _, _, _, _, _, _⟩ := scope
    cases kind <;> rfl

/-- Visibility depends on places alone. -/
theorem isVisible_mapNames (t : Tree) (s : ScopeId) (r : Reference ν) (v : VariableId) :
    (g.mapNames f).isVisible t s (r.mapName f) v = g.isVisible t s r v := by
  unfold isVisible
  rw [functionBody?_mapNames, getVariable?_mapNames]
  cases g.getVariable? v <;> rfl

theorem mapNames_taint (r : ReferenceId) : (g.taint r).mapNames f = (g.mapNames f).taint r :=
  mapNames_modifyReference f g fun _ => rfl

end Operations

section Injective

variable {f : ν → μ} (hf : Function.Injective f) (g : ScopeGraph ν)
include hf

omit [DecidableEq ν] [DecidableEq μ] in
theorem injOn_keys {α : Type} (m : OrderedMap ν α) : ∀ k ∈ m.keys, ∀ k', f k = f k' → k = k' :=
  fun _ _ _ heq => hf heq

theorem get?_mapKeys {α : Type} (m : OrderedMap ν α) (k : ν) :
    (m.mapKeys f).get? (f k) = m.get? k :=
  OrderedMap.get?_mapKeys (injOn_keys hf m) k

/-- Distinct names stay distinct, so a look-up finds the same variable. -/
theorem inTable?_mapNames (s : ScopeId) (name : ν) :
    (g.mapNames f).inTable? s (f name) = g.inTable? s name := by
  rw [inTable?, getScope?_mapNames, inTable?]
  cases g.getScope? s with
  | none => rfl
  | some scope => exact get?_mapKeys hf scope.table name

theorem globalVariable?_mapNames (name : ν) :
    (g.mapNames f).globalVariable? (f name) = g.globalVariable? name :=
  inTable?_mapNames hf g .global name

/-- A name is bound to the same variable under its new name. -/
theorem bind_mapNames (s : ScopeId) (name : ν) :
    (g.mapNames f).bind s (f name) = ((g.bind s name).1.mapNames f, (g.bind s name).2) := by
  unfold bind
  rw [inTable?_mapNames hf]
  cases hname : g.inTable? s name with
  | some v => rfl
  | none =>
    dsimp only
    rw [nextVariable_mapNames, ← mapNames_addVariable]
    refine congrArg (·, _) (mapNames_modifyScope f _ fun scope hscope => ?_).symm
    have habsent : scope.table.get? name = none := by
      rw [inTable?] at hname
      have hscope' : g.getScope? s = some scope := hscope
      rwa [hscope'] at hname
    simp only [Scope.mapNames, OrderedMap.mapKeys_insert habsent]

theorem bindImplicit_mapNames (name : ν) :
    (g.mapNames f).bindImplicit (f name) =
      ((g.bindImplicit name).1.mapNames f, (g.bindImplicit name).2) := by
  have htable : (g.mapNames f).implicit.table = g.implicit.table.mapKeys f := rfl
  unfold bindImplicit
  rw [htable, get?_mapKeys hf]
  cases hname : g.implicit.table.get? name with
  | some v => rfl
  | none =>
    dsimp only
    rw [nextVariable_mapNames, ← mapNames_addVariable, ← OrderedMap.mapKeys_insert hname]
    rfl

theorem mapNames_declare (s : ScopeId) (name : ν) (d : Option Definition) :
    (g.declare s name d).mapNames f = (g.mapNames f).declare s (f name) d := by
  unfold declare
  rw [bind_mapNames hf]
  cases d with
  | none => rfl
  | some d => exact mapNames_define f _ _ d

/-- An implicit global is declared under its new name. -/
theorem mapNames_declareImplicit (name : ν) (d : Definition) :
    (g.declareImplicit name d).mapNames f = (g.mapNames f).declareImplicit (f name) d := by
  unfold declareImplicit
  rw [bindImplicit_mapNames hf]
  exact mapNames_define f _ _ d

/-- A reference resolves to the same variable after a renaming. -/
theorem resolution?_mapNames (t : Tree) (s : ScopeId) (r : ReferenceId) :
    (g.mapNames f).resolution? t s r = g.resolution? t s r := by
  unfold resolution?
  rw [getReference?_mapNames]
  cases g.getReference? r with
  | none => rfl
  | some reference =>
    dsimp only [Option.map_some, Option.bind_eq_bind, Option.bind_some]
    rw [show (reference.mapName f).name = f reference.name from rfl, inTable?_mapNames hf]
    simp only [isVisible_mapNames]

/-- A reference settles in the same way after a renaming. -/
theorem mapNames_settle (t : Tree) (s : ScopeId) (r : ReferenceId) :
    (settle t s g r).mapNames f = settle t s (g.mapNames f) r := by
  unfold settle
  rw [resolution?_mapNames hf]
  cases g.resolution? t s r with
  | none => exact mapNames_delegate f g s r
  | some v => exact mapNames_link f g r v

theorem isBoundLexically_mapNames (s : ScopeId) (name : ν) :
    (g.mapNames f).isBoundLexically s (f name) = g.isBoundLexically s name := by
  unfold isBoundLexically
  rw [inTable?_mapNames hf]
  cases g.inTable? s name with
  | none => rfl
  | some v =>
    rw [Option.bind_some, Option.bind_some, getVariable?_mapNames, Option.any_map]
    rfl

theorem mapNames_declareSite (s : ScopeId) (r : ReferenceId) :
    (declareSite s g r).mapNames f = declareSite s (g.mapNames f) r := by
  unfold declareSite
  rw [getReference?_mapNames]
  cases g.getReference? r with
  | none => rfl
  | some reference =>
    obtain ⟨_, _, name, _, _, _, _, _, _, _, site⟩ := reference
    cases site with
    | none => rfl
    | some site =>
      simp only [Option.map_some, Reference.mapName, inTable?_mapNames hf]
      split
      · rfl
      · exact mapNames_declareImplicit hf g name _

/-- The global scope settles a reference in the same way after a renaming. -/
theorem mapNames_settleGlobal (t : Tree) (s : ScopeId) (r : ReferenceId) :
    (settleGlobal t s g r).mapNames f = settleGlobal t s (g.mapNames f) r := by
  have hbound : ((g.mapNames f).getReference? r).any
      ((g.mapNames f).isBoundLexically s ·.name) =
        (g.getReference? r).any (g.isBoundLexically s ·.name) := by
    rw [getReference?_mapNames, Option.any_map]
    congr 1
    exact funext fun reference => isBoundLexically_mapNames hf g s reference.name
  unfold settleGlobal
  rw [hbound]
  split
  · exact mapNames_settle hf g t s r
  · exact mapNames_modifyScope f g fun _ _ => rfl

theorem mapNames_closeGlobal (t : Tree) (s : ScopeId) (pending : Array ReferenceId) :
    (g.closeGlobal t s pending).mapNames f = (g.mapNames f).closeGlobal t s pending := by
  have hsites : pending.foldl (declareSite s) (g.mapNames f) =
      (pending.foldl (declareSite s) g).mapNames f :=
    Array.foldl_hom (mapNames f) fun g r => (mapNames_declareSite hf g s r).symm
  unfold closeGlobal
  rw [hsites]
  exact (Array.foldl_hom (mapNames f) fun g r => (mapNames_settleGlobal hf g t s r).symm).symm

/-- A scope closes in the same way after a renaming. -/
theorem mapNames_closeScope (t : Tree) (s : ScopeId) :
    (g.closeScope t s).mapNames f = (g.mapNames f).closeScope t s := by
  have hempty : (g.modifyScope s fun s => { s with pending := #[] }).mapNames f =
      (g.mapNames f).modifyScope s fun s => { s with pending := #[] } :=
    mapNames_modifyScope f g fun _ _ => rfl
  unfold closeScope
  rw [getScope?_mapNames]
  cases g.getScope? s with
  | none => rfl
  | some scope =>
    obtain ⟨_, kind, _, _, _, _, _, _, _, _, _, pending⟩ := scope
    have hsettle (g : ScopeGraph ν) : pending.foldl (settle t s) (g.mapNames f) =
        (pending.foldl (settle t s) g).mapNames f :=
      Array.foldl_hom (mapNames f) fun g r => (mapNames_settle hf g t s r).symm
    dsimp only [Option.map_some, Scope.mapNames]
    rw [← hempty]
    cases kind with
    | global => exact mapNames_closeGlobal hf _ t s pending
    | withBody =>
      refine (Array.foldl_hom (mapNames f) fun g r => ?_).symm
      rw [mapNames_delegate, mapNames_taint]
    | _ => exact (hsettle _).symm

end Injective

end ScopeGraph

namespace Cursor

variable [DecidableEq ν] [DecidableEq μ]

def mapNames (f : ν → μ) (c : Cursor ν) : Cursor μ :=
  ⟨c.graph.mapNames f, c.opened⟩

theorem place_mapNames (f : ν → μ) (c : Cursor ν) (place : Place) :
    (c.mapNames f).place place = c.place place := by
  cases place with
  | current => rfl
  | variableScope => exact c.graph.variableScope_mapNames f c.current

theorem reference_mapNames (f : ν → μ) (c : Cursor ν) (o : Occurrence ν) :
    (c.mapNames f).reference { o with name := f o.name } = (c.reference o).mapName f := by
  have hnext : (c.mapNames f).graph.nextReference = c.graph.nextReference :=
    c.graph.nextReference_mapNames f
  have hstrict : (c.mapNames f).graph.isStrict c.current = c.graph.isStrict c.current :=
    c.graph.isStrict_mapNames f c.current
  have hcurrent : (c.mapNames f).current = c.current := rfl
  unfold reference
  rw [hcurrent, hnext, hstrict]
  rfl

variable {f : ν → μ} (hf : Function.Injective f)
include hf

theorem mapNames_leaveAll (t : Tree) (block : NodeId) (g : ScopeGraph ν) (opened : List ScopeId) :
    (leaveAll t block g opened).mapNames f = leaveAll t block (g.mapNames f) opened := by
  induction opened generalizing g with
  | nil => rfl
  | cons s outer ih =>
    have hblock : ((g.mapNames f).getScope? s).any (·.block = block) =
        (g.getScope? s).any (·.block = block) := by
      rw [ScopeGraph.getScope?_mapNames, Option.any_map]
      rfl
    rw [leaveAll, leaveAll, hblock]
    split
    · rw [ih, ScopeGraph.mapNames_closeScope hf]
    · rfl

/-- A step does with renamed names what it does with the names. -/
theorem mapNames_step (t : Tree) (c : Cursor ν) (step : Step ν) :
    (c.step t step).mapNames f = (c.mapNames f).step t (step.mapName f) := by
  have hgraph (g : ScopeGraph ν) :
      ({ c with graph := g } : Cursor ν).mapNames f = { c.mapNames f with graph := g.mapNames f } :=
    rfl
  cases step with
  | enter kind block strict =>
    show Cursor.mk ((c.graph.openScope kind block strict c.opened.head?).mapNames f)
      (c.graph.nextScope :: c.opened) = _
    rw [ScopeGraph.mapNames_openScope, ← c.graph.nextScope_mapNames f]
    rfl
  | leave block => exact mapNames_leaveAll hf t block c.graph c.opened
  | declare place name d =>
    rw [Cursor.step, hgraph, ScopeGraph.mapNames_declare hf, ← place_mapNames f]
    rfl
  | refer o =>
    rw [Cursor.step, hgraph, ScopeGraph.mapNames_addReference, ← reference_mapNames]
    rfl
  | this =>
    have hthis : (c.graph.modifyScope (c.graph.variableScope c.current)
          fun s => { s with thisFound := true }).mapNames f =
        (c.graph.mapNames f).modifyScope (c.graph.variableScope c.current)
          fun s => { s with thisFound := true } :=
      ScopeGraph.mapNames_modifyScope f c.graph fun _ _ => rfl
    rw [Cursor.step, hgraph, hthis, ← c.graph.variableScope_mapNames f]
    rfl
  | misplacedImport n => rfl

theorem mapNames_run (t : Tree) (c : Cursor ν) (steps : List (Step ν)) :
    (c.run t steps).mapNames f = (c.mapNames f).run t (steps.map (.mapName f)) := by
  rw [run, run, List.foldl_map]
  exact (List.foldl_hom (mapNames f) fun c step => (mapNames_step hf t c step).symm).symm

end Cursor

namespace ScopeGraph

variable [DecidableEq ν] [DecidableEq μ] {f : ν → μ} (hf : Function.Injective f)
  (g : ScopeGraph ν)
include hf

/-- A walk along renamed steps makes the renamed graph. -/
theorem mapNames_ofSteps (t : Tree) (steps : List (Step ν)) :
    (ofSteps t steps).mapNames f = ofSteps t (steps.map (.mapName f)) := by
  have hempty : ({} : Cursor ν).mapNames f = {} := by
    simp [Cursor.mapNames, mapNames, ImplicitGlobals.mapNames, OrderedMap.mapKeys_empty]
  have hrun := Cursor.mapNames_run hf t {} steps
  rw [hempty] at hrun
  exact congrArg Cursor.graph hrun

theorem mapNames_bind_modifyVariable (s : ScopeId) (name : ν) {h : Variable ν → Variable ν}
    {h' : Variable μ → Variable μ} (hh : ∀ x, h' (x.mapName f) = (h x).mapName f) :
    ((g.bind s name).1.modifyVariable (g.bind s name).2 h).mapNames f =
      ((g.mapNames f).bind s (f name)).1.modifyVariable ((g.mapNames f).bind s (f name)).2 h' := by
  rw [bind_mapNames hf, mapNames_modifyVariable f _ hh]

/-- Configuration reaches the same variable under its new name. -/
theorem mapNames_configure (name : ν) {h : Variable ν → Variable ν}
    {h' : Variable μ → Variable μ} (hh : ∀ x, h' (x.mapName f) = (h x).mapName f) :
    (g.configure name h).mapNames f = (g.mapNames f).configure (f name) h' := by
  have hdeclared : (((g.bind .global name).1.mapNames f).getVariable? (g.bind .global name).2).any
      Variable.isDeclared =
        ((g.bind .global name).1.getVariable? (g.bind .global name).2).any Variable.isDeclared := by
    rw [getVariable?_mapNames, Option.any_map]
    rfl
  unfold configure
  rw [bind_mapNames hf]
  dsimp only
  rw [hdeclared]
  split
  · rfl
  · exact mapNames_modifyVariable f _ hh

theorem mapNames_applyPreset (configured : OrderedMap ν GlobalValue) (preset : ν × Bool) :
    (applyPreset configured g preset).mapNames f =
      applyPreset (configured.mapKeys f) (g.mapNames f) (f preset.1, preset.2) := by
  unfold applyPreset
  dsimp only
  rw [OrderedMap.contains_mapKeys (injOn_keys hf configured), globalVariable?_mapNames hf]
  split
  · rfl
  · exact mapNames_bind_modifyVariable hf g .global preset.1 fun _ => rfl

theorem mapNames_applyConfigured (entry : ν × GlobalValue) :
    (applyConfigured g entry).mapNames f = applyConfigured (g.mapNames f) (f entry.1, entry.2) := by
  unfold applyConfigured
  dsimp only
  split
  · rfl
  · exact mapNames_configure hf g entry.1 fun _ => rfl

theorem mapNames_applyInlined (entry : ν × InlineGlobal) :
    (applyInlined g entry).mapNames f = applyInlined (g.mapNames f) (f entry.1, entry.2) := by
  unfold applyInlined
  dsimp only
  split
  · rfl
  · exact mapNames_configure hf g entry.1 fun _ => rfl

theorem mapNames_applyExported (name : ν) :
    (applyExported g name).mapNames f = applyExported (g.mapNames f) (f name) := by
  unfold applyExported
  rw [globalVariable?_mapNames hf]
  cases g.globalVariable? name with
  | none => rfl
  | some v => exact mapNames_modifyVariable f g fun _ => rfl

/-- A reference left over finds the same global after a renaming. -/
theorem mapNames_settleThrough (r : ReferenceId) :
    (settleThrough g r).mapNames f = settleThrough (g.mapNames f) r := by
  have hname : ((g.mapNames f).getReference? r).bind ((g.mapNames f).globalVariable? ·.name) =
      (g.getReference? r).bind (g.globalVariable? ·.name) := by
    rw [getReference?_mapNames, Option.bind_map]
    congr 1
    exact funext fun reference => globalVariable?_mapNames hf g reference.name
  unfold settleThrough
  rw [hname]
  cases (g.getReference? r).bind (g.globalVariable? ·.name) with
  | none => exact mapNames_modifyScope f g fun _ _ => rfl
  | some v => exact mapNames_link f g r v

theorem mapNames_resolveThrough : g.resolveThrough.mapNames f = (g.mapNames f).resolveThrough := by
  have hthrough : (g.mapNames f).globalScope?.elim #[] (·.through) =
      g.globalScope?.elim #[] (·.through) := by
    rw [globalScope?, getScope?_mapNames, globalScope?]
    cases g.getScope? .global <;> rfl
  have hempty : (g.modifyScope .global fun s => { s with through := #[] }).mapNames f =
      (g.mapNames f).modifyScope .global fun s => { s with through := #[] } :=
    mapNames_modifyScope f g fun _ _ => rfl
  unfold resolveThrough
  rw [hthrough, ← hempty]
  exact (Array.foldl_hom (mapNames f) fun g r => (mapNames_settleThrough hf g r).symm).symm

theorem mapNames_pruneImplicit : g.pruneImplicit.mapNames f = (g.mapNames f).pruneImplicit := by
  have htable : (g.implicit.table.retain fun name _ => (g.globalVariable? name).isNone).mapKeys f =
      (g.implicit.table.mapKeys f).retain fun name _ =>
        ((g.mapNames f).globalVariable? name).isNone :=
    OrderedMap.mapKeys_retain (injOn_keys hf _) fun name _ => by rw [globalVariable?_mapNames hf]
  have hleft : (fun r => ((g.mapNames f).getReference? r).any fun reference =>
      ((g.mapNames f).globalVariable? reference.name).isNone) =
        fun r => (g.getReference? r).any fun reference =>
          (g.globalVariable? reference.name).isNone := by
    funext r
    rw [getReference?_mapNames, Option.any_map]
    congr 1
    exact funext fun reference =>
      congrArg Option.isNone (globalVariable?_mapNames hf g reference.name)
  unfold pruneImplicit
  dsimp only
  rw [hleft]
  show ({ g.mapNames f with implicit := { table := OrderedMap.mapKeys _ f, left := _ } } :
    ScopeGraph μ) = _
  rw [htable]
  rfl

/-- Renamed settings finish the renamed graph. -/
theorem mapNames_finalize (settings : GlobalSettings ν) :
    (g.finalize settings).mapNames f = (g.mapNames f).finalize (settings.mapNames f) := by
  have hpresets (g : ScopeGraph ν) : (settings.mapNames f).presets.foldl
      (applyPreset (settings.mapNames f).configured) (g.mapNames f) =
        (settings.presets.foldl (applyPreset settings.configured) g).mapNames f := by
    refine List.foldl_map.trans (List.foldl_hom (mapNames f) fun g preset => ?_)
    exact (mapNames_applyPreset hf g settings.configured preset).symm
  have hconfigured (g : ScopeGraph ν) :
      (settings.mapNames f).configured.toList.foldl applyConfigured (g.mapNames f) =
        (settings.configured.toList.foldl applyConfigured g).mapNames f := by
    rw [GlobalSettings.mapNames, OrderedMap.toList_mapKeys (injOn_keys hf _), List.foldl_map]
    exact List.foldl_hom (mapNames f) fun g entry => (mapNames_applyConfigured hf g entry).symm
  have hinlined (g : ScopeGraph ν) :
      (settings.mapNames f).inlined.toList.foldl applyInlined (g.mapNames f) =
        (settings.inlined.toList.foldl applyInlined g).mapNames f := by
    rw [GlobalSettings.mapNames, OrderedMap.toList_mapKeys (injOn_keys hf _), List.foldl_map]
    exact List.foldl_hom (mapNames f) fun g entry => (mapNames_applyInlined hf g entry).symm
  have hexported (g : ScopeGraph ν) :
      (settings.mapNames f).exported.keys.foldl applyExported (g.mapNames f) =
        (settings.exported.keys.foldl applyExported g).mapNames f := by
    rw [GlobalSettings.mapNames, OrderedMap.keys_mapKeys (injOn_keys hf _), List.foldl_map]
    exact List.foldl_hom (mapNames f) fun g name => (mapNames_applyExported hf g name).symm
  unfold finalize
  dsimp only
  rw [mapNames_pruneImplicit hf, mapNames_resolveThrough hf, hpresets, hconfigured, hinlined,
    hexported]

/-- Renaming an outline and the settings of its file renames the graph. -/
theorem mapNames_ofOutline (t : Tree) (outline : List (Step ν)) (settings : GlobalSettings ν) :
    (ofOutline t outline settings).mapNames f =
      ofOutline t (outline.map (.mapName f)) (settings.mapNames f) := by
  rw [ofOutline, mapNames_finalize hf, mapNames_ofSteps hf]
  rfl

end ScopeGraph

end LexicalScope
