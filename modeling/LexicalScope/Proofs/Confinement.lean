import LexicalScope.Proofs.Analyzed
import LexicalScope.Proofs.Renaming
import LexicalScope.Proofs.Stable

/-!
What configuration does not touch. Every step of it is confined to the global scope: it adds names
to the global table, revises variables of that table, binds references to them and drops what the
global scope has left over. All else stays as the walk has left it.
-/
namespace LexicalScope

variable {ν : Type} [DecidableEq ν]

/-- The variable keeps its declaration, and its references grow at the end. -/
structure Variable.Extends (v v' : Variable ν) : Prop where
  declaration_eq : v'.declaration = v.declaration
  references : v.references.toList <+: v'.references.toList

namespace Variable.Extends

omit [DecidableEq ν]

variable {v v' v'' : Variable ν}

theorem refl (v : Variable ν) : v.Extends v :=
  ⟨rfl, List.prefix_refl _⟩

theorem trans (h : v.Extends v') (h' : v'.Extends v'') : v.Extends v'' where
  declaration_eq := h'.declaration_eq.trans h.declaration_eq
  references := h.references.trans h'.references

end Variable.Extends

def Reference.unresolved (r : Reference ν) : Reference ν :=
  { r with resolved := none }

omit [DecidableEq ν] in
theorem Reference.eq_of_unresolved_eq {r r' : Reference ν} (h : r'.unresolved = r.unresolved) :
    r' = { r with resolved := r'.resolved } :=
  calc r' = { r'.unresolved with resolved := r'.resolved } := rfl
    _ = { r.unresolved with resolved := r'.resolved } := by rw [h]

/-- The scope keeps all but its table and what came through it, and its table grows at the
end. -/
structure Scope.Extends (s s' : Scope ν) : Prop where
  eq : s' = { s with table := s'.table, through := s'.through }
  table : s.table.toList <+: s'.table.toList

namespace Scope.Extends

variable {s s' s'' : Scope ν}

theorem refl (s : Scope ν) : s.Extends s :=
  ⟨rfl, List.prefix_refl _⟩

theorem trans (h : s.Extends s') (h' : s'.Extends s'') : s.Extends s'' where
  eq := by
    rw [h'.eq, h.eq]
  table := h.table.trans h'.table

end Scope.Extends

namespace ScopeGraph

/-- Going from `g` to `g'`, nothing has changed but the global scope and the variables of its
table. -/
structure Confined (g g' : ScopeGraph ν) : Prop where
  anchors_eq : g'.anchors = g.anchors
  declared_eq : g'.declared = g.declared
  scope_eq : ∀ s, s ≠ .global → g'.getScope? s = g.getScope? s
  global : ∀ scope, g.getScope? .global = some scope →
    ∃ scope', g'.getScope? .global = some scope' ∧ scope.Extends scope'
  reference_eq : ∀ r, (g'.getReference? r).map Reference.unresolved =
    (g.getReference? r).map Reference.unresolved
  bindings : ∀ v x, g.getVariable? v = some x → ∃ x', g'.getVariable? v = some x' ∧ x.Extends x'
  /-- What has not been a global does not become one. -/
  others : ∀ v x, g.getVariable? v = some x → (∀ name, g.globalVariable? name ≠ some v) →
    g'.getVariable? v = some x ∧ ∀ name, g'.globalVariable? name ≠ some v
  implicit_table : g'.implicit.table.toList.Sublist g.implicit.table.toList
  implicit_left : g'.implicit.left.toList.Sublist g.implicit.left.toList

namespace Confined

variable {g g' g'' : ScopeGraph ν}

theorem refl (g : ScopeGraph ν) : Confined g g where
  anchors_eq := rfl
  declared_eq := rfl
  scope_eq _ _ := rfl
  global scope h := ⟨scope, h, .refl scope⟩
  reference_eq _ := rfl
  bindings _ x h := ⟨x, h, .refl x⟩
  others _ _ h hother := ⟨h, hother⟩
  implicit_table := .refl _
  implicit_left := .refl _

theorem trans (h : Confined g g') (h' : Confined g' g'') : Confined g g'' where
  anchors_eq := h'.anchors_eq.trans h.anchors_eq
  declared_eq := h'.declared_eq.trans h.declared_eq
  scope_eq s hs := (h'.scope_eq s hs).trans (h.scope_eq s hs)
  global scope hscope := by
    obtain ⟨scope', hscope', hextends⟩ := h.global scope hscope
    obtain ⟨scope'', hscope'', hextends'⟩ := h'.global scope' hscope'
    exact ⟨scope'', hscope'', hextends.trans hextends'⟩
  reference_eq r := (h'.reference_eq r).trans (h.reference_eq r)
  bindings v x hx := by
    obtain ⟨x', hx', hextends⟩ := h.bindings v x hx
    obtain ⟨x'', hx'', hextends'⟩ := h'.bindings v x' hx'
    exact ⟨x'', hx'', hextends.trans hextends'⟩
  others v x hx hother := by
    obtain ⟨hx', hother'⟩ := h.others v x hx hother
    exact h'.others v x hx' hother'
  implicit_table := h'.implicit_table.trans h.implicit_table
  implicit_left := h'.implicit_left.trans h.implicit_left

/-- What came through the global scope may change. -/
theorem modifyThrough (g : ScopeGraph ν) (f : Array ReferenceId → Array ReferenceId) :
    Confined g (g.modifyScope .global fun s => { s with through := f s.through }) where
  anchors_eq := rfl
  declared_eq := rfl
  scope_eq s hs := by rw [getScope?_modifyScope, if_neg hs]
  global scope hscope := by
    refine ⟨{ scope with through := f scope.through }, ?_, rfl, List.prefix_refl _⟩
    rw [getScope?_modifyScope, if_pos rfl, hscope, Option.map_some]
  reference_eq _ := rfl
  bindings _ x hx := ⟨x, hx, .refl x⟩
  others v x hx hother := by
    refine ⟨hx, fun name => ?_⟩
    rw [globalVariable?, inTable?_modifyScope g (by exact fun _ => rfl)]
    exact hother name
  implicit_table := .refl _
  implicit_left := .refl _

/-- A variable of the global table may learn more about itself. -/
theorem modifyVariable {name : ν} {v : VariableId} (hv : g.globalVariable? name = some v)
    {f : Variable ν → Variable ν} (hf : ∀ x : Variable ν, x.Extends (f x)) :
    Confined g (g.modifyVariable v f) where
  anchors_eq := rfl
  declared_eq := rfl
  scope_eq _ _ := rfl
  global scope hscope := ⟨scope, hscope, .refl scope⟩
  reference_eq _ := rfl
  bindings w x hx := by
    rw [getVariable?_modifyVariable, hx]
    split
    · exact ⟨f x, rfl, hf x⟩
    · exact ⟨x, rfl, .refl x⟩
  others w x hx hother := by
    refine ⟨?_, hother⟩
    have hne : w ≠ v := fun h => hother name (h ▸ hv)
    rw [getVariable?_modifyVariable, if_neg hne, hx]
  implicit_table := .refl _
  implicit_left := .refl _

theorem modifyReference (g : ScopeGraph ν) (r : ReferenceId) {f : Reference ν → Reference ν}
    (hf : ∀ x, (f x).unresolved = x.unresolved) : Confined g (g.modifyReference r f) where
  anchors_eq := rfl
  declared_eq := rfl
  scope_eq _ _ := rfl
  global scope hscope := ⟨scope, hscope, .refl scope⟩
  reference_eq x := by
    rw [getReference?_modifyReference]
    split
    · cases g.getReference? x <;> simp [hf]
    · rfl
  bindings _ x hx := ⟨x, hx, .refl x⟩
  others _ _ hx hother := ⟨hx, hother⟩
  implicit_table := .refl _
  implicit_left := .refl _

/-- A name without a global gets a new one. -/
theorem revise (g : ScopeGraph ν) (name : ν) {f : Variable ν → Variable ν}
    (hf : ∀ x : Variable ν, x.Extends (f x)) : Confined g (g.revise .global name f) := by
  have hrevises := revises_revise g .global name f
  cases hname : g.inTable? .global name with
  | some v =>
    have hbind : g.bind .global name = (g, v) := by simp [bind, hname]
    rw [ScopeGraph.revise, hbind]
    exact modifyVariable hname hf
  | none =>
    have hbind : g.bind .global name = ((g.addVariable .global name).modifyScope .global
        fun s => { s with table := s.table.insert name g.nextVariable }, g.nextVariable) := by
      simp [bind, hname]
    have hnew {v : VariableId} {x : Variable ν} (hx : g.getVariable? v = some x) :
        v ≠ g.nextVariable := by
      rintro rfl
      rw [getVariable?_nextVariable] at hx
      cases hx
    have hvariable {v : VariableId} {x : Variable ν} (hx : g.getVariable? v = some x) :
        (g.revise .global name f).getVariable? v = some x := by
      rw [hrevises.getVariable?_eq, hbind, if_neg (hnew hx), ← hbind, getVariable?_bind,
        if_neg fun h => hnew hx h.1, hx]
    exact {
      anchors_eq := by rw [ScopeGraph.revise, hbind]; rfl
      declared_eq := by rw [ScopeGraph.revise, hbind]; rfl
      scope_eq := fun s hs => by
        rw [hrevises.getScope?_eq, getScope?_bind, if_neg fun h => hs h.1]
      global := fun scope hscope => by
        refine ⟨{ scope with table := scope.table.insert name g.nextVariable }, ?_, rfl, ?_⟩
        · rw [hrevises.getScope?_eq, getScope?_bind, if_pos ⟨rfl, hname⟩, hscope, Option.map_some]
        · rw [inTable?, hscope] at hname
          rw [OrderedMap.toList_insert hname]
          exact List.prefix_append ..
      reference_eq := fun r => by rw [hrevises.getReference?_eq]
      bindings := fun v x hx => ⟨x, hvariable hx, .refl x⟩
      others := fun v x hx hother => by
        refine ⟨hvariable hx, fun m hm => ?_⟩
        rw [globalVariable?, inTable?, hrevises.getScope?_eq] at hm
        rcases inTable?_of_bind hm with hv | hm
        · rw [hbind] at hv
          exact hnew hx hv
        · exact hother m hm
      implicit_table := by rw [ScopeGraph.revise, hbind]; exact .refl _
      implicit_left := by rw [ScopeGraph.revise, hbind]; exact .refl _ }

/-- Implicit globals may be dropped. -/
theorem setImplicit (g : ScopeGraph ν) {implicit : ImplicitGlobals ν}
    (htable : implicit.table.toList.Sublist g.implicit.table.toList)
    (hleft : implicit.left.toList.Sublist g.implicit.left.toList) :
    Confined g { g with implicit } where
  anchors_eq := rfl
  declared_eq := rfl
  scope_eq _ _ := rfl
  global scope hscope := ⟨scope, hscope, .refl scope⟩
  reference_eq _ := rfl
  bindings _ x hx := ⟨x, hx, .refl x⟩
  others _ _ hx hother := ⟨hx, hother⟩
  implicit_table := htable
  implicit_left := hleft

theorem foldl {α : Type} {step : ScopeGraph ν → α → ScopeGraph ν}
    (hstep : ∀ g x, Confined g (step g x)) (l : List α) (g : ScopeGraph ν) :
    Confined g (l.foldl step g) :=
  foldl_induction (fun x h => h.trans (hstep _ x)) l (refl g)

end Confined

section Passes

variable {g : ScopeGraph ν}

/-- Configuring touches the global table and its variables only. -/
theorem confined_configure (g : ScopeGraph ν) (name : ν) {f : Variable ν → Variable ν}
    (hf : ∀ x : Variable ν, x.Extends (f x)) : Confined g (g.configure name f) := by
  rw [configure_eq]
  split
  · exact .refl g
  · exact .revise g name hf

theorem confined_applyPreset (configured : OrderedMap ν GlobalValue) (g : ScopeGraph ν)
    (preset : ν × Bool) : Confined g (applyPreset configured g preset) := by
  rw [applyPreset_eq]
  split
  · exact .refl g
  · exact .revise g _ fun _ => ⟨rfl, List.prefix_refl _⟩

theorem confined_applyConfigured (g : ScopeGraph ν) (entry : ν × GlobalValue) :
    Confined g (applyConfigured g entry) := by
  unfold applyConfigured
  dsimp only
  split
  · exact .refl g
  · exact confined_configure g _ fun _ => ⟨rfl, List.prefix_refl _⟩

theorem confined_applyInlined (g : ScopeGraph ν) (entry : ν × InlineGlobal) :
    Confined g (applyInlined g entry) := by
  unfold applyInlined
  dsimp only
  split
  · exact .refl g
  · exact confined_configure g _ fun _ => ⟨rfl, List.prefix_refl _⟩

theorem confined_applyExported (g : ScopeGraph ν) (name : ν) :
    Confined g (applyExported g name) := by
  unfold applyExported
  split
  · next v hv => exact .modifyVariable hv fun _ => ⟨rfl, List.prefix_refl _⟩
  · exact .refl g

/-- All passes over the settings are confined to the global table. -/
theorem confined_configurePasses (g : ScopeGraph ν) (settings : GlobalSettings ν) :
    Confined g (g.configurePasses settings) :=
  (((Confined.foldl (confined_applyPreset settings.configured) _ _).trans
    (.foldl confined_applyConfigured _ _)).trans (.foldl confined_applyInlined _ _)).trans
    (.foldl confined_applyExported _ _)

/-- Binding a reference extends a variable of the global table, which still leads to it. -/
theorem confined_link {name : ν} {v : VariableId} (hv : g.globalVariable? name = some v)
    (r : ReferenceId) : Confined g (g.link r v) := by
  let bound := g.modifyReference r fun r => { r with resolved := some v }
  have hreference : Confined g bound := .modifyReference g r fun _ => rfl
  have hv : bound.globalVariable? name = some v := hv
  refine hreference.trans (.modifyVariable hv fun x => ⟨rfl, ?_⟩)
  rw [Array.toList_push]
  exact List.prefix_append ..

theorem confined_settleThrough (g : ScopeGraph ν) (r : ReferenceId) :
    Confined g (settleThrough g r) := by
  unfold settleThrough
  split
  · next v hv =>
    obtain ⟨reference, -, hname⟩ := Option.bind_eq_some_iff.1 hv
    exact confined_link hname r
  · exact .modifyThrough g (·.push r)

theorem confined_pruneImplicit (g : ScopeGraph ν) : Confined g g.pruneImplicit := by
  refine .setImplicit g ?_ ?_
  · rw [OrderedMap.toList_retain]
    exact List.filter_sublist
  · rw [Array.toList_filter]
    exact List.filter_sublist

/-- Finalizing is confined to the globals. -/
theorem confined_finalize (g : ScopeGraph ν) (settings : GlobalSettings ν) :
    Confined g (g.finalize settings) := by
  have hcleared (g : ScopeGraph ν) : Confined g g.clearedThrough := .modifyThrough g fun _ => #[]
  rw [finalize_eq, resolveThrough_eq]
  exact (((confined_configurePasses g settings).trans (hcleared _)).trans
    (.foldl confined_settleThrough _ _)).trans (confined_pruneImplicit _)

end Passes

/-- Going from `g` to `g'`, globals are configured, and references that the global scope had left
over are bound to them. -/
structure Finalized (g g' : ScopeGraph ν) : Prop extends Confined g g' where
  /-- A reference keeps all but its variable, and a variable too if it has one. -/
  references : ∀ r x, g.getReference? r = some x → ∃ x', g'.getReference? r = some x' ∧
    x' = { x with resolved := x'.resolved } ∧
    (x'.resolved = x.resolved ∨
      x.resolved = none ∧ ∃ v, x'.resolved = some v ∧ g'.globalVariable? x.name = some v)
  through : (g'.throughOf .global).Sublist (g.throughOf .global)

section Finalize

variable {g : ScopeGraph ν} {t : Tree} (hg : g.Walked t) (h : Settled g t [.global])
  (hs : ScopeId.global.index < g.scopes.size) (settings : GlobalSettings ν)

include hg h hs

omit settings in
theorem throughOf_closeGlobal : (g.closeScope t .global).throughOf .global =
    (g.pendingOf .global).filter (g.lexicalOffer? · = none) := by
  rw [(closes_closeGlobal hg h hs).throughOf_eq,
    h.through_open .global (List.mem_singleton.2 rfl), if_pos rfl, List.nil_append]

omit settings in
/-- What the closed global scope has left over is not bound yet. -/
theorem resolvedOf_of_mem_through {r : ReferenceId}
    (hr : r ∈ (g.closeScope t .global).throughOf .global) :
    (g.closeScope t .global).resolvedOf r = none := by
  rw [throughOf_closeGlobal hg h hs, List.mem_filter] at hr
  rw [(closes_closeGlobal hg h hs).resolvedOf_eq, if_pos hr.1]
  exact of_decide_eq_true hr.2

/-- The references left over meet the configured globals; all others keep what they have. -/
theorem resolvedOf_finalize (r : ReferenceId) :
    ((g.closeScope t .global).finalize settings).resolvedOf r =
      if r ∈ (g.closeScope t .global).throughOf .global then
        ((g.closeScope t .global).finalize settings).nameOffer? r
      else (g.closeScope t .global).resolvedOf r := by
  have hsettles := settles_configurePasses hg h hs settings rfl
  have hlinks := (configured_closeGlobal hg h hs settings).links.resolvedOf r
  rw [← throughOf_closeGlobal hg h hs] at hsettles
  rw [finalize_eq, (frame_resolveThrough _).nameOffer?]
  refine (hsettles.resolvedOf_eq r).trans ?_
  have hcleared : ((g.closeScope t .global).configurePasses settings).clearedThrough.resolvedOf r =
      (g.closeScope t .global).resolvedOf r := hlinks
  rw [hcleared]
  split
  · next hr => rw [resolvedOf_of_mem_through hg h hs hr, Option.or_none]
  · rfl

/-- Configuration takes references out of the list left over and adds none. -/
theorem throughOf_finalize :
    (((g.closeScope t .global).finalize settings).throughOf .global).Sublist
      ((g.closeScope t .global).throughOf .global) := by
  have hsettles := settles_configurePasses hg h hs settings rfl
  have hthrough := hsettles.throughOf_eq .global
  rw [throughOf_clearedThrough, if_pos rfl, if_pos rfl, List.nil_append,
    ← throughOf_closeGlobal hg h hs] at hthrough
  have hfinal : ((g.closeScope t .global).finalize settings).throughOf .global = _ := hthrough
  rw [hfinal]
  exact List.filter_sublist

/-- Between the closing of the global scope and the result, only the global table and what waited
for it change. -/
theorem finalized_closeGlobal : Finalized (g.closeScope t .global)
    ((g.closeScope t .global).finalize settings) where
  toConfined := confined_finalize _ settings
  references r x hx := by
    have hreference := (confined_finalize (g.closeScope t .global) settings).reference_eq r
    rw [hx, Option.map_some, Option.map_eq_some_iff] at hreference
    obtain ⟨x', hx', hsame⟩ := hreference
    have heq := Reference.eq_of_unresolved_eq hsame
    refine ⟨x', hx', heq, ?_⟩
    have hresolved := resolvedOf_finalize hg h hs settings r
    rw [resolvedOf, hx', Option.bind_some] at hresolved
    split at hresolved
    · next hr =>
      have hnone := resolvedOf_of_mem_through hg h hs hr
      rw [resolvedOf, hx, Option.bind_some] at hnone
      cases hv : x'.resolved with
      | none => exact .inl hnone.symm
      | some v =>
        rw [hv] at hresolved
        obtain ⟨y, hy, hname⟩ := nameOffer?_eq_some_iff.1 hresolved.symm
        obtain rfl := Option.some.inj (hx'.symm.trans hy)
        rw [heq] at hname
        exact .inr ⟨hnone, v, rfl, hname⟩
    · rw [resolvedOf, hx, Option.bind_some] at hresolved
      exact .inl hresolved
  through := throughOf_finalize hg h hs settings

end Finalize

/-- Finalizing the graph of a walk only configures globals and binds to them. -/
theorem finalized_ofSteps {t : Tree} {o : LanguageOptions} {outline : Outline}
    (houtline : t.outline? o = some outline) (f : String → ν) (settings : GlobalSettings ν) :
    Finalized (ofSteps t (outline.map (.mapName f)))
      ((ofSteps t (outline.map (.mapName f))).finalize settings) := by
  obtain ⟨source, hwalking, -, hsteps⟩ := exists_walking_ofSteps houtline f
  rw [hsteps]
  exact finalized_closeGlobal hwalking.walked hwalking.settled hwalking.lt_size settings

/-- `a; b;` -/
def twoReads : Build NodeId := do
  let a ← .alloc (.expressionStatement (← .identifier "a") none)
  let b ← .alloc (.expressionStatement (← .identifier "b") none)
  .alloc (.program [a, b] .script)

/-- With `a` from an environment the reference to `a` gets the new global of its name, and the
reference to `b` stays in the global scope. -/
theorem finalized_twoReads : ∃ t outline g g' v,
    Build.tree twoReads = .ok t ∧ t.outline? {} = some outline ∧
    ofSteps t (outline.map (.mapName id)) = g ∧ g.finalize { presets := [("a", false)] } = g' ∧
    g.Finalized g' ∧ g.resolvedOf ⟨0⟩ = none ∧ g'.resolvedOf ⟨0⟩ = some v ∧
    g'.globalVariable? "a" = some v ∧ g'.throughOf .global = [⟨1⟩] := by
  obtain ⟨t, ht⟩ : ∃ t, Build.tree twoReads = .ok t := ⟨_, rfl⟩
  have hoffered : ∃ outline, t.outline? {} = some outline ∧
      (let g := ofSteps t (outline.map (.mapName id))
      let g' := g.finalize { presets := [("a", false)] }
      (g.getReference? ⟨0⟩).any (fun r => r.resolved = none ∧ r.name = "a") = true ∧
        (g'.resolvedOf ⟨0⟩).isSome = true ∧ g'.throughOf .global = [⟨1⟩]) := by
    obtain rfl := Except.ok.inj ht
    exact ⟨_, rfl, by decide +kernel⟩
  obtain ⟨outline, houtline, hbefore, hafter, hthrough⟩ := hoffered
  have hfinalized := finalized_ofSteps houtline id { presets := [("a", false)] }
  rw [Option.any_eq_true] at hbefore
  obtain ⟨r, hr, hbefore⟩ := hbefore
  obtain ⟨hnone, hname⟩ := of_decide_eq_true hbefore
  obtain ⟨v, hv⟩ := Option.isSome_iff_exists.1 hafter
  obtain ⟨r', hr', -, hresolved⟩ := hfinalized.references ⟨0⟩ r hr
  have hsome : r'.resolved = some v := by
    rw [← hv, resolvedOf, hr', Option.bind_some]
  refine ⟨t, outline, _, _, v, ht, houtline, rfl, rfl, hfinalized, ?_, hv, ?_, hthrough⟩
  · rw [resolvedOf, hr, Option.bind_some, hnone]
  · obtain hkept | ⟨-, w, hw, hglobal⟩ := hresolved
    · rw [hsome, hnone] at hkept
      cases hkept
    · rw [hsome] at hw
      obtain rfl := Option.some.inj hw
      rwa [hname] at hglobal

end ScopeGraph

end LexicalScope
