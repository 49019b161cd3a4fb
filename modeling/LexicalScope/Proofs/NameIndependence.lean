import LexicalScope.Proofs.Equivariance
import LexicalScope.Proofs.Spelling
import Mathlib.Data.Sum.Basic

/-!
Independence of the name table. An analysis does with the handles of a table what it would do with
the texts themselves: handles stand for texts one by one, and all names that come up are in the
table. What the table held before does not show in the outcome.
-/
namespace LexicalScope

namespace NameTable

variable (names : NameTable)

/-- The text of a handle; a handle that the table has not given out stands for itself. -/
def tag (n : Name) : String ⊕ Name :=
  (names.resolve? n).elim (.inr n) .inl

def untag : String ⊕ Name → String :=
  Sum.elim id fun _ => ""

theorem untag_tag (n : Name) : untag (names.tag n) = names.resolve n := by
  rw [tag, resolve]
  cases names.resolve? n <;> rfl

theorem tag_handle {text : String} (h : text ∈ names.texts) :
    names.tag (names.handle text) = .inl text := by
  rw [tag, resolve?_handle h, Option.elim_some]

/-- A table has each text once. -/
theorem eq_of_resolve? {n m : Name} {text : String} (hn : names.resolve? n = some text)
    (hm : names.resolve? m = some text) : n = m := by
  obtain ⟨i⟩ := n
  obtain ⟨j⟩ := m
  have hi : names.texts.toList[i]? = some text := (Array.getElem?_toList ..).trans hn
  have hj : names.texts.toList[j]? = some text := (Array.getElem?_toList ..).trans hm
  have hlt := (List.getElem?_eq_some_iff.1 hi).1
  exact congrArg Name.mk ((List.getElem?_inj hlt names.distinct).1 (hi.trans hj.symm))

/-- Texts and handles that a table has not given out are told apart. -/
theorem tag_injective : Function.Injective names.tag := by
  intro n m h
  unfold tag at h
  cases hn : names.resolve? n with
  | none =>
    cases hm : names.resolve? m with
    | none =>
      rw [hn, hm] at h
      exact Sum.inr.inj h
    | some text =>
      rw [hn, hm] at h
      cases h
  | some text =>
    cases hm : names.resolve? m with
    | none =>
      rw [hn, hm] at h
      cases h
    | some text' =>
      rw [hn, hm] at h
      obtain rfl : text = text' := Sum.inl.inj h
      exact names.eq_of_resolve? hn hm

end NameTable

namespace ScopeGraph

variable {ν μ ρ : Type} [DecidableEq ν] [DecidableEq μ] [DecidableEq ρ]

theorem mapNames_mapNames {f : ν → μ} (hf : Function.Injective f) (f' : μ → ρ)
    (g : ScopeGraph ν) : (g.mapNames f).mapNames f' = g.mapNames (f' ∘ f) := by
  have hkeys (table : OrderedMap ν VariableId) :
      (table.mapKeys f).mapKeys f' = table.mapKeys (f' ∘ f) :=
    OrderedMap.mapKeys_mapKeys (injOn_keys hf table) f'
  have hscopes : (fun s : Scope ν => (s.mapNames f).mapNames f') = (·.mapNames (f' ∘ f)) := by
    funext s
    exact congrArg (fun table => ({ s with table } : Scope ρ)) (hkeys s.table)
  have himplicit : (g.implicit.mapNames f).mapNames f' = g.implicit.mapNames (f' ∘ f) :=
    congrArg (fun table => ({ g.implicit with table } : ImplicitGlobals ρ)) (hkeys _)
  unfold mapNames
  rw [himplicit]
  simp only [Array.map_map, Function.comp_def]
  rw [hscopes]
  rfl

theorem map_mapNames_mapNames {ε : Type} {f : ν → μ} (hf : Function.Injective f) (f' : μ → ρ)
    (result : Except ε (ScopeGraph ν)) :
    (result.map (·.mapNames f)).map (·.mapNames f') = result.map (·.mapNames (f' ∘ f)) := by
  cases result with
  | error e => rfl
  | ok g => exact congrArg Except.ok (mapNames_mapNames hf f' g)

end ScopeGraph

theorem Step.mapName_congr {ν μ : Type} {f f' : ν → μ} {step : Step ν}
    (h : ∀ name, step.name? = some name → f name = f' name) : step.mapName f = step.mapName f' := by
  cases step with
  | declare place name d => rw [mapName, mapName, h name rfl]
  | refer o => rw [mapName, mapName, h o.name rfl]
  | _ => rfl

theorem Step.mapName_mapName {ν μ ρ : Type} (f : ν → μ) (f' : μ → ρ) (step : Step ν) :
    (step.mapName f).mapName f' = step.mapName (f' ∘ f) := by
  cases step <;> rfl

namespace GlobalSettings

variable {ν μ ρ : Type} [DecidableEq ν] [DecidableEq μ] [DecidableEq ρ]
  (settings : GlobalSettings ν)

/-- Settings see a renaming at their own names only. -/
theorem mapNames_congr {f f' : ν → μ} (h : ∀ name ∈ settings.names, f name = f' name) :
    settings.mapNames f = settings.mapNames f' := by
  have hinlined : settings.inlined.mapKeys f = settings.inlined.mapKeys f' :=
    OrderedMap.mapKeys_congr fun name hname => h name (by simp [names, hname])
  have hexported : settings.exported.mapKeys f = settings.exported.mapKeys f' :=
    OrderedMap.mapKeys_congr fun name hname => h name (by simp [names, hname])
  have hconfigured : settings.configured.mapKeys f = settings.configured.mapKeys f' :=
    OrderedMap.mapKeys_congr fun name hname => h name (by simp [names, hname])
  have hpresets : settings.presets.map (fun p => (f p.1, p.2)) =
      settings.presets.map fun p => (f' p.1, p.2) := by
    apply List.map_congr_left
    intro preset hpreset
    have hmem : preset.1 ∈ settings.presets.map (·.1) := List.mem_map_of_mem hpreset
    rw [h preset.1 (by simp only [names, List.mem_append, hmem, or_true])]
  unfold mapNames
  rw [hinlined, hexported, hconfigured, hpresets]

theorem mapNames_mapNames {f : ν → μ}
    (hf : ∀ name ∈ settings.names, ∀ name', f name = f name' → name = name') (f' : μ → ρ) :
    (settings.mapNames f).mapNames f' = settings.mapNames (f' ∘ f) := by
  have hinlined : (settings.inlined.mapKeys f).mapKeys f' = settings.inlined.mapKeys (f' ∘ f) :=
    OrderedMap.mapKeys_mapKeys (fun name hname => hf name (by simp [names, hname])) f'
  have hexported : (settings.exported.mapKeys f).mapKeys f' = settings.exported.mapKeys (f' ∘ f) :=
    OrderedMap.mapKeys_mapKeys (fun name hname => hf name (by simp [names, hname])) f'
  have hconfigured :
      (settings.configured.mapKeys f).mapKeys f' = settings.configured.mapKeys (f' ∘ f) :=
    OrderedMap.mapKeys_mapKeys (fun name hname => hf name (by simp [names, hname])) f'
  unfold mapNames
  dsimp only
  rw [hinlined, hexported, hconfigured, List.map_map]
  rfl

end GlobalSettings

namespace Tree

variable (t : Tree) (o : LanguageOptions) (envs : Environments)

/-- The outcome of an analysis in which texts are their own names. -/
def outcome : Except ScopeError (ScopeGraph String) :=
  match t.outline? o with
  | none => .error (.rootNotProgram t.root t.rootKind.typeName)
  | some outline =>
    match outline.findSome? Step.misplacedImport? with
    | some declaration => .error (.importOutsideModule declaration)
    | none => .ok (.ofOutline t outline (GlobalSettings.ofFile o envs t.comments))

variable {t o envs}

/-- Handles in place of texts make no difference to a graph, if the table has all its names. -/
theorem mapNames_tag_ofOutline (names : NameTable) {outline : Outline}
    {settings : GlobalSettings String}
    (houtline : ∀ name ∈ outline.filterMap Step.name?, name ∈ names.texts)
    (hsettings : ∀ name ∈ settings.names, name ∈ names.texts) :
    (ScopeGraph.ofOutline t (outline.map (.mapName names.handle))
        (settings.mapNames names.handle)).mapNames names.tag =
      (ScopeGraph.ofOutline t outline settings).mapNames .inl := by
  have hsteps : (outline.map (Step.mapName names.handle)).map (Step.mapName names.tag) =
      outline.map (Step.mapName .inl) := by
    rw [List.map_map]
    apply List.map_congr_left
    intro step hstep
    rw [Function.comp_apply, Step.mapName_mapName]
    refine Step.mapName_congr fun name hname => names.tag_handle (houtline name ?_)
    exact List.mem_filterMap.2 ⟨step, hstep, hname⟩
  have hrenamed : (settings.mapNames names.handle).mapNames names.tag =
      settings.mapNames .inl := by
    rw [settings.mapNames_mapNames fun name hname _ =>
      NameTable.eq_of_handle_eq (hsettings name hname)]
    exact settings.mapNames_congr fun name hname => names.tag_handle (hsettings name hname)
  rw [ScopeGraph.mapNames_ofOutline names.tag_injective, hsteps, hrenamed,
    ScopeGraph.mapNames_ofOutline Sum.inl_injective]

variable (t o envs)

/-- An analysis over handles comes out as the one over texts. -/
theorem mapNames_tag_analyze (names : NameTable) :
    (analyze names t o envs).2.map (·.mapNames (analyze names t o envs).1.tag) =
      (t.outcome o envs).map (·.mapNames .inl) := by
  unfold analyze outcome
  cases t.outline? o with
  | none => rfl
  | some outline =>
    dsimp only
    cases himports : outline.findSome? Step.misplacedImport? with
    | some declaration => rfl
    | none =>
      refine congrArg Except.ok
        (mapNames_tag_ofOutline _ (fun name hname => ?_) fun name hname => ?_)
      · rw [NameTable.mem_texts_addAll, NameTable.mem_texts_addAll, Step.reached_eq_self himports]
        exact .inl (.inr hname)
      · rw [NameTable.mem_texts_addAll]
        exact .inr hname

/-- What comes out when the names of a tree go into a table and the tree is analysed, with texts
in place of handles. -/
def report (names : NameTable) : Except ScopeError (ScopeGraph String) :=
  let (names, outcome) := analyze (names.addAll t.mentionedNames) t o envs
  outcome.map (·.mapNames names.resolve)

/-- A report has the names of the texts, whatever table the file went through. -/
theorem report_eq (names : NameTable) :
    t.report o envs names = (t.outcome o envs).map (·.mapNames id) := by
  have htag (names : NameTable) : NameTable.untag ∘ names.tag = names.resolve :=
    funext names.untag_tag
  have hinl : NameTable.untag ∘ (.inl : String → String ⊕ Name) = id := rfl
  have hanalyze := congrArg (Except.map (·.mapNames NameTable.untag))
    (t.mapNames_tag_analyze o envs (names.addAll t.mentionedNames))
  rw [ScopeGraph.map_mapNames_mapNames (NameTable.tag_injective _), htag,
    ScopeGraph.map_mapNames_mapNames Sum.inl_injective, hinl] at hanalyze
  exact hanalyze

end Tree

/-- What a name table held before a file came in does not show in the outcome of its analysis. -/
theorem report_independent (t : Tree) (o : LanguageOptions) (envs : Environments)
    (names names' : NameTable) : t.report o envs names = t.report o envs names' := by
  rw [Tree.report_eq, Tree.report_eq]

end LexicalScope
