import LexicalScope.Proofs.GlobalClosing

/-!
Configuring globals. Every step of the passes over environments, configured names and directives
leaves the graph as it is or revises one global, which it adds if there is none. So a pass acts
on each global by itself, and only adds names at the end of the global table.
-/
namespace LexicalScope

variable {ν : Type}

/-- What configuration may look at or change of a global. -/
structure GlobalRecord where
  definitions : Array Definition := #[]
  writable : Option Bool := none
  used : Bool := false
  exported : Bool := false
  explicitGlobal : Bool := false
  explicitGlobalComments : List CommentId := []
  implicitGlobalSetting : Option GlobalValue := none
deriving DecidableEq

namespace GlobalRecord

def isDeclared (r : GlobalRecord) : Bool :=
  !r.definitions.isEmpty

def preset (isWritable : Bool) : GlobalRecord :=
  { writable := some isWritable, implicitGlobalSetting := some (.ofBool isWritable) }

def configure (value : GlobalValue) (r : GlobalRecord) : GlobalRecord :=
  { r with
    writable := some value.isWritable
    implicitGlobalSetting := some value
    explicitGlobal := false
    explicitGlobalComments := [] }

def configureInline (inlined : InlineGlobal) (r : GlobalRecord) : GlobalRecord :=
  { r with
    writable := some inlined.value.isWritable
    explicitGlobal := true
    explicitGlobalComments := inlined.comments }

def markExported (r : GlobalRecord) : GlobalRecord :=
  { r with used := true, exported := true }

end GlobalRecord

def Variable.record (v : Variable ν) : GlobalRecord where
  definitions := v.definitions
  writable := v.writable
  used := v.used
  exported := v.exported
  explicitGlobal := v.explicitGlobal
  explicitGlobalComments := v.explicitGlobalComments
  implicitGlobalSetting := v.implicitGlobalSetting

/-- A revision of the record of a global alone. -/
structure RevisesRecord (f : Variable ν → Variable ν) (F : GlobalRecord → GlobalRecord) :
    Prop where
  name_eq : ∀ v, (f v).name = v.name
  scope_eq : ∀ v, (f v).scope = v.scope
  references_eq : ∀ v, (f v).references = v.references
  record_eq : ∀ v, (f v).record = F v.record

namespace ScopeGraph

theorem Owns.name_unique {g : ScopeGraph ν} {s s' : ScopeId} {name name' : ν} {v : VariableId}
    (h : g.Owns s name v) (h' : g.Owns s' name' v) : name = name' := by
  obtain ⟨variable', hv, -, rfl⟩ := h
  obtain ⟨variable'', hv', -, rfl⟩ := h'
  obtain rfl : variable' = variable'' := Option.some.inj (hv.symm.trans hv')
  rfl

variable [DecidableEq ν]

def globalRecord? (g : ScopeGraph ν) (name : ν) : Option GlobalRecord :=
  ((g.globalVariable? name).bind g.getVariable?).map Variable.record

def globalNames (g : ScopeGraph ν) : List ν :=
  (g.tableOf .global).elim [] (·.keys)

/-- The names listed are those that the table has. -/
theorem mem_globalNames_iff (g : ScopeGraph ν) (name : ν) :
    name ∈ g.globalNames ↔ (g.globalVariable? name).isSome := by
  rw [globalNames, globalVariable?, inTable?_eq_bind]
  cases g.tableOf .global with
  | none => simp
  | some table => exact table.mem_keys_iff name

theorem Frame.globalNames {g g' : ScopeGraph ν} (h : Frame [] g g') :
    g'.globalNames = g.globalNames := by
  rw [ScopeGraph.globalNames, h.tableOf_eq .global List.not_mem_nil, ScopeGraph.globalNames]

theorem Frame.globalRecord? {g g' : ScopeGraph ν} (h : Frame [] g g') (name : ν) :
    g'.globalRecord? name = g.globalRecord? name := by
  rw [ScopeGraph.globalRecord?, globalVariable?, h.inTable?_eq .global List.not_mem_nil,
    ScopeGraph.globalRecord?, globalVariable?]
  cases hv : g.inTable? .global name with
  | none => rfl
  | some v =>
    have hrecord := congrArg (Option.map Variable.record)
      (h.variable_eq .global List.not_mem_nil name v hv)
    simp only [Option.map_map] at hrecord
    exact hrecord

def addName (names : List ν) (name : ν) : List ν :=
  if name ∈ names then names else names ++ [name]

section Revise

variable {g g' : ScopeGraph ν} {name : ν} {f : Variable ν → Variable ν}
  {F : GlobalRecord → GlobalRecord} (hg : g.WellFormed) (hs : ScopeId.global.index < g.scopes.size)
  (h : Revises g g' .global name f)

include hs h in
/-- A revision adds its name at the end, unless it is there. -/
theorem globalNames_of_revises : g'.globalNames = addName g.globalNames name := by
  obtain ⟨scope, hscope⟩ := getScope?_of_lt hs
  have hnames : g.globalNames = scope.table.keys := by
    rw [globalNames, tableOf, hscope]
    rfl
  have hget : g.inTable? .global name = scope.table.get? name := by
    rw [inTable?, hscope]
    rfl
  rw [globalNames, tableOf, h.getScope?_eq, getScope?_bind, hscope, hget, hnames]
  cases hname : scope.table.get? name with
  | some v =>
    have hmem : name ∈ scope.table.keys := (scope.table.mem_keys_iff name).2 (by
      rw [OrderedMap.contains, hname]
      rfl)
    simp [addName, hmem]
  | none => simp [addName, OrderedMap.keys_insert]

omit hs h in
include hg in
/-- The variable that a revision finds or adds. -/
theorem exists_bound (name : ν) : ∃ bound,
    (g.bind .global name).1.getVariable? (g.bind .global name).2 = some bound ∧
      bound.record = (g.globalRecord? name).getD {} := by
  obtain ⟨bound, hvar, -, -⟩ := hg.owns_bind .global name
  refine ⟨bound, hvar, ?_⟩
  rw [globalRecord?, globalVariable?]
  cases hv : g.inTable? .global name with
  | some v =>
    have hbind : g.bind .global name = (g, v) := by simp [bind, hv]
    rw [hbind] at hvar
    simp only at hvar
    rw [Option.bind_some, hvar]
    rfl
  | none =>
    rw [getVariable?_bind, bind_snd, hv, Option.getD_none, if_pos ⟨rfl, rfl⟩] at hvar
    obtain rfl := Option.some.inj hvar
    rfl

include hg hs h in
/-- A revision changes the record of its own name only. -/
theorem globalRecord?_of_revises (hf : RevisesRecord f F) (m : ν) :
    g'.globalRecord? m =
      if m = name then some (F ((g.globalRecord? name).getD {})) else g.globalRecord? m := by
  rw [globalRecord?, globalVariable?, h.inTable?_eq hs]
  by_cases hm : m = name
  · obtain ⟨bound, hvar, hrecord⟩ := exists_bound hg name
    rw [if_pos ⟨rfl, hm⟩, if_pos hm, Option.bind_some, h.getVariable?_eq, if_pos rfl, hvar,
      Option.map_some, Option.map_some, hf.record_eq, hrecord]
  · rw [if_neg fun heq => hm heq.2, if_neg hm, globalRecord?, globalVariable?]
    cases hv : g.inTable? .global m with
    | none => rfl
    | some v =>
      have howns := hg.inTable hv
      have hsame := WellFormed.Owns.getVariable?_bind howns .global name
      have hne : v ≠ (g.bind .global name).2 := by
        rintro rfl
        have howns' : (g.bind .global name).1.Owns .global m (g.bind .global name).2 := by
          rwa [Owns, hsame]
        exact hm (howns'.name_unique (hg.owns_bind .global name))
      rw [Option.bind_some, Option.bind_some, h.getVariable?_eq, if_neg hne, hsame]

end Revise

/-- Going from `g` to `g'`, configuration adds names to the global table and acts on the record of
each global by itself. Nothing else changes. -/
structure Configured (g g' : ScopeGraph ν) (added : List ν)
    (effect : ν → Option GlobalRecord → Option GlobalRecord) : Prop where
  frame : Frame [.global] g g'
  links : SameLinks g g'
  wellFormed : g'.WellFormed
  grows : ∀ name v, g.globalVariable? name = some v → g'.globalVariable? name = some v
  globalNames_eq : g'.globalNames = added.foldl addName g.globalNames
  globalRecord?_eq : ∀ name, g'.globalRecord? name = effect name (g.globalRecord? name)

/-- Every name in the global table has a record. -/
theorem isSome_globalRecord? {g : ScopeGraph ν} (hg : g.WellFormed) (name : ν) :
    (g.globalRecord? name).isSome = (g.globalVariable? name).isSome := by
  rw [globalRecord?, Option.isSome_map]
  cases hv : g.globalVariable? name with
  | none => rfl
  | some v =>
    obtain ⟨variable', hvar, -⟩ := hg.inTable hv
    rw [Option.bind_some, hvar]
    rfl

theorem addName_of_mem {names : List ν} {name : ν} (h : name ∈ names) :
    addName names name = names :=
  if_pos h

namespace Configured

variable {g g' g'' : ScopeGraph ν} {added added' : List ν}
  {effect effect' : ν → Option GlobalRecord → Option GlobalRecord}

/-- Passes may follow each other, with their effects applied in order. -/
theorem trans (h : Configured g g' added effect) (h' : Configured g' g'' added' effect') :
    Configured g g'' (added ++ added') fun name r => effect' name (effect name r) where
  frame := h.frame.trans h'.frame
  links := h.links.trans h'.links
  wellFormed := h'.wellFormed
  grows name v hv := h'.grows name v (h.grows name v hv)
  globalNames_eq := by rw [h'.globalNames_eq, h.globalNames_eq, List.foldl_append]
  globalRecord?_eq name := by rw [h'.globalRecord?_eq, h.globalRecord?_eq]

/-- A step that has nothing to do. -/
theorem skip (hg : g.WellFormed) (hadded : ∀ name ∈ added, name ∈ g.globalNames)
    (heffect : ∀ name, effect name (g.globalRecord? name) = g.globalRecord? name) :
    Configured g g added effect where
  frame := .refl _ g
  links := .refl g
  wellFormed := hg
  grows _ _ hv := hv
  globalNames_eq := by
    induction added with
    | nil => rfl
    | cons name added ih =>
      rw [List.foldl_cons, addName_of_mem (hadded name (List.mem_cons_self ..))]
      exact ih fun m hm => hadded m (List.mem_cons_of_mem _ hm)
  globalRecord?_eq name := (heffect name).symm

/-- A step that revises one global. -/
theorem of_revises (hg : g.WellFormed) (hs : ScopeId.global.index < g.scopes.size) {name : ν}
    {f : Variable ν → Variable ν} {F : GlobalRecord → GlobalRecord}
    (h : Revises g g' .global name f) (hf : RevisesRecord f F)
    (hadded : added.foldl addName g.globalNames = addName g.globalNames name)
    (heffect : effect name (g.globalRecord? name) = some (F ((g.globalRecord? name).getD {})))
    (hother : ∀ m, m ≠ name → ∀ r, effect m r = r) : Configured g g' added effect where
  frame := hg.frame_of_revises h
  links := h.sameLinks hf.references_eq
  wellFormed := hg.of_revises h hs hf.scope_eq hf.name_eq
  grows m v hv := by
    rw [globalVariable?, h.inTable?_eq hs]
    split
    · next heq =>
      rw [globalVariable?, heq.2] at hv
      rw [bind_snd, hv, Option.getD_some]
    · exact hv
  globalNames_eq := by rw [hadded, globalNames_of_revises hs h]
  globalRecord?_eq m := by
    rw [globalRecord?_of_revises hg hs h hf]
    split
    · next hm => rw [hm, heffect]
    · next hm => rw [hother m hm]

/-- A pass over a list is what its items do one after the other. -/
theorem foldl {α : Type} {step : ScopeGraph ν → α → ScopeGraph ν} {added : α → List ν}
    {effect : α → ν → Option GlobalRecord → Option GlobalRecord}
    (hstep : ∀ g : ScopeGraph ν, g.WellFormed → ScopeId.global.index < g.scopes.size → ∀ x,
      Configured g (step g x) (added x) (effect x))
    (hg : g.WellFormed) (hs : ScopeId.global.index < g.scopes.size) (l : List α) :
    Configured g (l.foldl step g) (l.flatMap added)
      fun name r => l.foldl (fun r x => effect x name r) r := by
  induction l generalizing g with
  | nil => exact skip hg (fun _ h => absurd h List.not_mem_nil) fun _ => rfl
  | cons x l ih =>
    have hx := hstep g hg hs x
    rw [List.flatMap_cons]
    exact hx.trans (ih hx.wellFormed ((hx.frame.positions.lt_size_iff _).2 hs))

end Configured

def revise (g : ScopeGraph ν) (s : ScopeId) (name : ν) (f : Variable ν → Variable ν) :
    ScopeGraph ν :=
  (g.bind s name).1.modifyVariable (g.bind s name).2 f

theorem revises_revise (g : ScopeGraph ν) (s : ScopeId) (name : ν) (f : Variable ν → Variable ν) :
    Revises g (g.revise s name f) s name f :=
  ⟨fun _ => rfl, g.getReference?_bind s name,
    fun v => getVariable?_modifyVariable (g.bind s name).1 (g.bind s name).2 v f⟩

section Passes

variable {g : ScopeGraph ν} (hg : g.WellFormed) (hs : ScopeId.global.index < g.scopes.size)

def presetAdds (configured : OrderedMap ν GlobalValue) (preset : ν × Bool) : List ν :=
  if configured.contains preset.1 then [] else [preset.1]

def presetEffect (configured : OrderedMap ν GlobalValue) (preset : ν × Bool) (name : ν)
    (r : Option GlobalRecord) : Option GlobalRecord :=
  if name = preset.1 ∧ configured.contains preset.1 = false then
    some (r.getD (.preset preset.2))
  else r

theorem applyPreset_eq (configured : OrderedMap ν GlobalValue) (g : ScopeGraph ν)
    (preset : ν × Bool) : applyPreset configured g preset =
      if configured.contains preset.1 || (g.globalVariable? preset.1).isSome then g
      else g.revise .global preset.1 fun v =>
        { v with
          writable := some preset.2
          implicitGlobalSetting := some (.ofBool preset.2) } := rfl

include hg hs in
/-- A name from an environment comes in unless it is configured or present. -/
theorem configured_applyPreset (configured : OrderedMap ν GlobalValue) (preset : ν × Bool) :
    Configured g (applyPreset configured g preset) (presetAdds configured preset)
      (presetEffect configured preset) := by
  rw [applyPreset_eq]
  unfold presetAdds
  cases hcontains : configured.contains preset.1 with
  | true =>
    rw [Bool.true_or, if_pos rfl, if_pos rfl]
    apply Configured.skip hg fun m hm => absurd hm List.not_mem_nil
    intro m
    rw [presetEffect, hcontains, if_neg fun h => nomatch h.2]
  | false =>
    rw [Bool.false_or, if_neg Bool.false_ne_true]
    split
    · next hsome =>
      apply Configured.skip hg
      · intro m hm
        rw [List.mem_singleton.1 hm, mem_globalNames_iff]
        exact hsome
      · intro m
        unfold presetEffect
        split
        · next heq =>
          rw [← isSome_globalRecord? hg, ← heq.1] at hsome
          obtain ⟨r, hr⟩ := Option.isSome_iff_exists.1 hsome
          rw [hr, Option.getD_some]
        · rfl
    · next hnone =>
      have hrecord : g.globalRecord? preset.1 = none := by
        rw [← Option.not_isSome_iff_eq_none, isSome_globalRecord? hg]
        exact hnone
      refine .of_revises hg hs (revises_revise g .global preset.1 _)
        (F := fun r => { r with
          writable := some preset.2
          implicitGlobalSetting := some (.ofBool preset.2) })
        ⟨fun _ => rfl, fun _ => rfl, fun _ => rfl, fun _ => rfl⟩ rfl ?_ fun m hm r => ?_
      · rw [presetEffect, hrecord, hcontains, if_pos ⟨rfl, rfl⟩]
        rfl
      · rw [presetEffect, if_neg fun h => hm h.1]

/-- Configuration leaves alone what the source declares. -/
def GlobalRecord.unlessDeclared (F : GlobalRecord → GlobalRecord) (r : GlobalRecord) :
    GlobalRecord :=
  if r.isDeclared then r else F r

def configureEffect (name : ν) (F : GlobalRecord → GlobalRecord) (m : ν)
    (r : Option GlobalRecord) : Option GlobalRecord :=
  if m = name then some (GlobalRecord.unlessDeclared F (r.getD {})) else r

theorem configure_eq (g : ScopeGraph ν) (name : ν) (f : Variable ν → Variable ν) :
    g.configure name f =
      if ((g.bind .global name).1.getVariable? (g.bind .global name).2).any Variable.isDeclared
      then g else g.revise .global name f := rfl

include hg hs in
/-- Configuring a name affects no other name. -/
theorem configured_configure (name : ν) {f : Variable ν → Variable ν}
    {F : GlobalRecord → GlobalRecord} (hf : RevisesRecord f F) :
    Configured g (g.configure name f) [name] (configureEffect name F) := by
  obtain ⟨bound, hbound, hrecord⟩ := exists_bound hg name
  rw [configure_eq, hbound, Option.any_some]
  have hdeclared : bound.isDeclared = ((g.globalRecord? name).getD {}).isDeclared := by
    rw [← hrecord]
    rfl
  rw [hdeclared]
  split
  · next hdeclared =>
    obtain ⟨r, hr⟩ : ∃ r, g.globalRecord? name = some r := by
      cases hr : g.globalRecord? name with
      | none => simp [hr, GlobalRecord.isDeclared] at hdeclared
      | some r => exact ⟨r, rfl⟩
    rw [hr, Option.getD_some] at hdeclared
    apply Configured.skip hg
    · intro m hm
      rw [List.mem_singleton.1 hm, mem_globalNames_iff, ← isSome_globalRecord? hg, hr]
      rfl
    · intro m
      unfold configureEffect
      split
      · next hm => rw [hm, hr, Option.getD_some, GlobalRecord.unlessDeclared, if_pos hdeclared]
      · rfl
  · next hdeclared =>
    apply Configured.of_revises hg hs (revises_revise g .global name f) hf rfl
    · rw [configureEffect, if_pos rfl, GlobalRecord.unlessDeclared, if_neg hdeclared]
    · intro m hm r
      rw [configureEffect, if_neg hm]

include hg hs in
/-- A setting that may be off. -/
theorem configured_unless (isOff : Bool) (name : ν) {f : Variable ν → Variable ν}
    {F : GlobalRecord → GlobalRecord} (hf : RevisesRecord f F) :
    Configured g (if isOff then g else g.configure name f) (if isOff then [] else [name])
      fun m r => if isOff then r else configureEffect name F m r := by
  cases isOff with
  | true => exact .skip hg (fun m hm => absurd hm List.not_mem_nil) fun _ => rfl
  | false => exact configured_configure hg hs name hf

def configuredAdds (entry : ν × GlobalValue) : List ν :=
  if entry.2.isOff then [] else [entry.1]

def configuredEffect (entry : ν × GlobalValue) (name : ν) (r : Option GlobalRecord) :
    Option GlobalRecord :=
  if entry.2.isOff then r else configureEffect entry.1 (.configure entry.2) name r

include hg hs in
theorem configured_applyConfigured (entry : ν × GlobalValue) :
    Configured g (applyConfigured g entry) (configuredAdds entry) (configuredEffect entry) :=
  configured_unless hg hs entry.2.isOff entry.1
    ⟨fun _ => rfl, fun _ => rfl, fun _ => rfl, fun _ => rfl⟩

def inlinedAdds (entry : ν × InlineGlobal) : List ν :=
  if entry.2.value.isOff then [] else [entry.1]

def inlinedEffect (entry : ν × InlineGlobal) (name : ν) (r : Option GlobalRecord) :
    Option GlobalRecord :=
  if entry.2.value.isOff then r else configureEffect entry.1 (.configureInline entry.2) name r

include hg hs in
theorem configured_applyInlined (entry : ν × InlineGlobal) :
    Configured g (applyInlined g entry) (inlinedAdds entry) (inlinedEffect entry) :=
  configured_unless hg hs entry.2.value.isOff entry.1
    ⟨fun _ => rfl, fun _ => rfl, fun _ => rfl, fun _ => rfl⟩

def exportedEffect (exported name : ν) (r : Option GlobalRecord) : Option GlobalRecord :=
  if name = exported then r.map .markExported else r

include hg hs in
theorem configured_applyExported (name : ν) :
    Configured g (applyExported g name) [] (exportedEffect name) := by
  have hsome := isSome_globalRecord? hg name
  unfold applyExported
  split
  · next v hv =>
    have hrevise : g.modifyVariable v (fun v => { v with used := true, exported := true }) =
        g.revise .global name fun v => { v with used := true, exported := true } := by
      have hbind : g.bind .global name = (g, v) := by
        rw [globalVariable?] at hv
        simp [bind, hv]
      rw [revise, hbind]
    rw [hv] at hsome
    obtain ⟨r, hr⟩ := Option.isSome_iff_exists.1 hsome
    rw [hrevise]
    refine .of_revises hg hs (revises_revise g .global name _) (F := .markExported)
      ⟨fun _ => rfl, fun _ => rfl, fun _ => rfl, fun _ => rfl⟩ ?_ ?_ ?_
    · rw [addName_of_mem ((g.mem_globalNames_iff name).2 (by rw [hv]; rfl))]
      rfl
    · rw [exportedEffect, if_pos rfl, hr, Option.map_some, Option.getD_some]
    · intro m hm r
      rw [exportedEffect, if_neg hm]
  · next hnone =>
    rw [hnone] at hsome
    have hrecord := Option.not_isSome_iff_eq_none.1 (Bool.eq_false_iff.1 hsome)
    apply Configured.skip hg fun m hm => absurd hm List.not_mem_nil
    intro m
    unfold exportedEffect
    split
    · next hm => rw [hm, hrecord, Option.map_none]
    · rfl

end Passes

end ScopeGraph

end LexicalScope
