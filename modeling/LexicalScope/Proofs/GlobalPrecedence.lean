import LexicalScope.Proofs.GlobalSources
import LexicalScope.Proofs.Renaming
import Mathlib.Data.List.Find

/-!
Precedence of configuration. What the source declares stays as it is. Any other global takes its
writability from a directive comment, else from the configuration, else from the environments,
and a name that the configuration lists, be it as off, is not taken from environments. The passes
act on each name by the entries of the settings for it, and these are what the sources of the file
say of the name.
-/
namespace LexicalScope

variable {ν : Type} [DecidableEq ν]

namespace GlobalSettings

variable (settings : GlobalSettings ν) (name : ν)

def configuredRecord? : Option GlobalRecord :=
  ((settings.value? name).map fun value => GlobalRecord.configure value {}).or
    ((settings.preset? name).map .preset)

def record? : Option GlobalRecord :=
  ((settings.inline? name).map fun inlined =>
    ((settings.configuredRecord? name).getD {}).configureInline inlined).or
      (settings.configuredRecord? name)

def combinedRecord : GlobalRecord where
  writable := (((settings.inline? name).map (·.value.isWritable)).or
    ((settings.value? name).map (·.isWritable))).or (settings.preset? name)
  implicitGlobalSetting := (settings.value? name).or ((settings.preset? name).map .ofBool)
  explicitGlobal := (settings.inline? name).isSome
  explicitGlobalComments := (settings.inline? name).elim [] (·.comments)

/-- A record is there exactly if one of the three sources has the name. -/
theorem record?_eq : settings.record? name =
    if (settings.inline? name).isSome ∨ (settings.value? name).isSome ∨
        (settings.preset? name).isSome then
      some (settings.combinedRecord name)
    else none := by
  unfold record? configuredRecord? combinedRecord
  cases settings.inline? name <;> cases settings.value? name <;> cases settings.preset? name <;>
    rfl

/-- Configuration declares nothing. -/
theorem isDeclared_configuredRecord? :
    ((settings.configuredRecord? name).getD {}).isDeclared = false := by
  unfold configuredRecord?
  cases settings.value? name with
  | some value => rfl
  | none => cases settings.preset? name <;> rfl

end GlobalSettings

section Folds

variable {κ α β : Type} [DecidableEq κ]

/-- Of entries with distinct keys, only the one for `k` has an effect on `k`. -/
theorem foldl_entries {k : κ} {f : β → κ × α → β} (hf : ∀ b e, e.1 ≠ k → f b e = b)
    {entries : List (κ × α)} (h : (entries.map (·.1)).Nodup) (b : β) :
    entries.foldl f b = (entries.find? (·.1 = k)).elim b (f b) := by
  induction entries generalizing b with
  | nil => rfl
  | cons e entries ih =>
    rw [List.map_cons, List.nodup_cons] at h
    rw [List.foldl_cons, ih h.2, List.find?_cons]
    by_cases he : e.1 = k
    · have hnone : entries.find? (·.1 = k) = none := by
        refine List.find?_eq_none.2 fun e' he' heq => h.1 ?_
        rw [he, ← of_decide_eq_true heq]
        exact List.mem_map_of_mem he'
      rw [hnone, decide_eq_true he]
      rfl
    · rw [hf b e he, decide_eq_false he]

/-- The first entry with a key is the only one. -/
theorem OrderedMap.find?_toList (m : OrderedMap κ α) (k : κ) :
    m.toList.find? (·.1 = k) = (m.get? k).map (k, ·) := by
  cases hfind : m.toList.find? (·.1 = k) with
  | some e =>
    obtain ⟨k', v⟩ := e
    have hkey : k' = k := by simpa using List.find?_some hfind
    have hv := (m.mem_toList_iff k' v).1 (List.mem_of_find?_eq_some hfind)
    rw [← hkey, hv, Option.map_some]
  | none =>
    cases hv : m.get? k with
    | none => rfl
    | some v =>
      have hnone := List.find?_eq_none.1 hfind (k, v) ((m.mem_toList_iff k v).2 hv)
      exact absurd (decide_eq_true rfl) hnone

/-- Only one entry of a map matters. -/
theorem OrderedMap.foldl_toList (m : OrderedMap κ α) (k : κ) {f : β → κ × α → β}
    (hf : ∀ b e, e.1 ≠ k → f b e = b) (b : β) :
    m.toList.foldl f b = (m.get? k).elim b fun v => f b (k, v) := by
  rw [foldl_entries hf (m.map_fst_toList ▸ m.nodup_keys), m.find?_toList]
  cases m.get? k <;> rfl

end Folds

namespace ScopeGraph

variable (settings : GlobalSettings ν) (name : ν)

/-- The first environment with a name brings it in. -/
theorem foldl_presetEffect (presets : List (ν × Bool)) (configured : OrderedMap ν GlobalValue)
    (r : Option GlobalRecord) :
    presets.foldl (fun r x => presetEffect configured x name r) r =
      r.or (if configured.contains name then none
        else (presets.find? (·.1 = name)).map fun x => .preset x.2) := by
  induction presets generalizing r with
  | nil => simp
  | cons x presets ih =>
    rw [List.foldl_cons, ih, presetEffect, List.find?_cons]
    by_cases hx : x.1 = name
    · subst hx
      cases hcontains : configured.contains x.1 with
      | true => simp
      | false => cases r <;> simp
    · simp [hx, Ne.symm hx]

/-- Exporting a name twice is exporting it once. -/
theorem foldl_exportedEffect (exported : List ν) (r : Option GlobalRecord) :
    exported.foldl (fun r x => exportedEffect x name r) r =
      if name ∈ exported then r.map .markExported else r := by
  induction exported generalizing r with
  | nil => rfl
  | cons x exported ih =>
    rw [List.foldl_cons, ih, exportedEffect]
    have htwice : (r.map .markExported).map GlobalRecord.markExported = r.map .markExported := by
      cases r <;> rfl
    by_cases hx : name = x
    · simp [hx, htwice]
    · simp [hx]

theorem configuredEffect_of_ne {entry : ν × GlobalValue} (h : entry.1 ≠ name)
    (r : Option GlobalRecord) : configuredEffect entry name r = r := by
  rw [configuredEffect, configureEffect, if_neg (Ne.symm h), ite_self]

theorem inlinedEffect_of_ne {entry : ν × InlineGlobal} (h : entry.1 ≠ name)
    (r : Option GlobalRecord) : inlinedEffect entry name r = r := by
  rw [inlinedEffect, configureEffect, if_neg (Ne.symm h), ite_self]

/-- The passes act on a global by the entries of its name. -/
theorem settingsEffect_eq (r : Option GlobalRecord) :
    settingsEffect settings name r =
      let r := r.or ((settings.preset? name).map .preset)
      let r := (settings.configured.get? name).elim r fun value =>
        configuredEffect (name, value) name r
      let r := (settings.inlined.get? name).elim r fun inlined =>
        inlinedEffect (name, inlined) name r
      if settings.exported.contains name then r.map .markExported else r := by
  have hpreset : (if settings.configured.contains name then none
      else (settings.presets.find? (·.1 = name)).map fun x => GlobalRecord.preset x.2) =
        (settings.preset? name).map .preset := by
    rw [GlobalSettings.preset?]
    split
    · rfl
    · rw [Option.map_map]
      rfl
  rw [settingsEffect, foldl_presetEffect, hpreset, foldl_exportedEffect,
    OrderedMap.foldl_toList _ name fun r e he => configuredEffect_of_ne name he r,
    OrderedMap.foldl_toList _ name fun r e he => inlinedEffect_of_ne name he r]
  simp only [OrderedMap.mem_keys_iff]

/-- Configuration leaves what the source declares, except for exports. -/
theorem settingsEffect_of_isDeclared {r : GlobalRecord} (hr : r.isDeclared = true) :
    settingsEffect settings name (some r) =
      some (if settings.exported.contains name then r.markExported else r) := by
  have hsame (F : GlobalRecord → GlobalRecord) : configureEffect name F name (some r) = some r := by
    rw [configureEffect, if_pos rfl, Option.getD_some, GlobalRecord.unlessDeclared, if_pos hr]
  have hconfigured : ((settings.configured.get? name).elim (some r) fun value =>
      configuredEffect (name, value) name (some r)) = some r := by
    cases settings.configured.get? name with
    | none => rfl
    | some value => rw [Option.elim_some, configuredEffect, hsame, ite_self]
  have hinlined : ((settings.inlined.get? name).elim (some r) fun inlined =>
      inlinedEffect (name, inlined) name (some r)) = some r := by
    cases settings.inlined.get? name with
    | none => rfl
    | some inlined => rw [Option.elim_some, inlinedEffect, hsame, ite_self]
  rw [settingsEffect_eq, Option.some_or]
  simp only [hconfigured, hinlined]
  split <;> rfl

/-- A configured value overrides the environments, and `off` leaves what they bring in. -/
theorem elim_configuredEffect : ((settings.configured.get? name).elim
    ((settings.preset? name).map GlobalRecord.preset) fun value =>
      configuredEffect (name, value) name ((settings.preset? name).map .preset)) =
    settings.configuredRecord? name := by
  unfold GlobalSettings.configuredRecord? GlobalSettings.value?
  cases hvalue : settings.configured.get? name with
  | none => rfl
  | some value =>
    have hpreset : settings.preset? name = none := by
      rw [GlobalSettings.preset?, OrderedMap.contains, hvalue]
      rfl
    rw [hpreset, Option.elim_some, configuredEffect]
    cases hoff : value.isOff with
    | true => simp [Option.filter, hoff]
    | false => simp [Option.filter, hoff, configureEffect, GlobalRecord.unlessDeclared,
        GlobalRecord.isDeclared]

/-- A directive overrides the configuration, and `off` leaves what that brings in. -/
theorem elim_inlinedEffect : ((settings.inlined.get? name).elim
    (settings.configuredRecord? name) fun inlined =>
      inlinedEffect (name, inlined) name (settings.configuredRecord? name)) =
    settings.record? name := by
  have hundeclared := settings.isDeclared_configuredRecord? name
  unfold GlobalSettings.record? GlobalSettings.inline?
  cases settings.inlined.get? name with
  | none => rfl
  | some inlined =>
    rw [Option.elim_some, inlinedEffect]
    cases hoff : inlined.value.isOff with
    | true => simp [Option.filter, hoff]
    | false => simp [Option.filter, hoff, configureEffect, GlobalRecord.unlessDeclared,
        hundeclared]

/-- What becomes of a name that the source does not declare. -/
theorem settingsEffect_none : settingsEffect settings name none =
    if settings.exported.contains name then (settings.record? name).map .markExported
    else settings.record? name := by
  rw [settingsEffect_eq, Option.none_or]
  simp only [elim_configuredEffect, elim_inlinedEffect]

end ScopeGraph

namespace GlobalSettings

variable {μ : Type} [DecidableEq μ] {settings : GlobalSettings ν} {f : ν → μ}
  (hf : ∀ k ∈ settings.names, ∀ k', f k = f k' → k = k')
include hf

theorem inline?_mapNames (name : ν) :
    (settings.mapNames f).inline? (f name) = settings.inline? name := by
  rw [inline?, mapNames, OrderedMap.get?_mapKeys, inline?]
  exact fun k hk => hf k (by simp [names, hk])

theorem value?_mapNames (name : ν) :
    (settings.mapNames f).value? (f name) = settings.value? name := by
  rw [value?, mapNames, OrderedMap.get?_mapKeys, value?]
  exact fun k hk => hf k (by simp [names, hk])

/-- Environments give the same to a renamed name. -/
theorem preset?_mapNames (name : ν) :
    (settings.mapNames f).preset? (f name) = settings.preset? name := by
  have hfind : (settings.mapNames f).presets.find? (·.1 = f name) =
      (settings.presets.find? (·.1 = name)).map fun x => (f x.1, x.2) := by
    have hsame : ∀ x ∈ settings.presets, decide (f x.1 = f name) = decide (x.1 = name) := by
      intro x hx
      have hmem : x.1 ∈ settings.names := List.mem_append_right _ (List.mem_map_of_mem hx)
      exact decide_eq_decide.2 ⟨hf x.1 hmem name, congrArg f⟩
    show (settings.presets.map _).find? _ = _
    rw [List.find?_map]
    exact congrArg (Option.map _) (List.find?_congr hsame)
  have hcontains : (settings.mapNames f).configured.contains (f name) =
      settings.configured.contains name :=
    OrderedMap.contains_mapKeys (fun k hk => hf k (by simp [names, hk])) name
  rw [preset?, hcontains, hfind, preset?, Option.map_map]
  rfl

theorem contains_exported_mapNames (name : ν) :
    (settings.mapNames f).exported.contains (f name) = settings.exported.contains name :=
  OrderedMap.contains_mapKeys (fun k hk => hf k (by simp [names, hk])) name

theorem combinedRecord_mapNames (name : ν) :
    (settings.mapNames f).combinedRecord (f name) = settings.combinedRecord name := by
  rw [combinedRecord, inline?_mapNames hf, value?_mapNames hf, preset?_mapNames hf, combinedRecord]

theorem addedNames_mapNames :
    ScopeGraph.addedNames (settings.mapNames f) = (ScopeGraph.addedNames settings).map f := by
  have hconfigured : ∀ k ∈ settings.configured.keys, ∀ k', f k = f k' → k = k' :=
    fun k hk => hf k (by simp [names, hk])
  have hinlined : ∀ k ∈ settings.inlined.keys, ∀ k', f k = f k' → k = k' :=
    fun k hk => hf k (by simp [names, hk])
  have hpresets : ((fun x => !(settings.configured.mapKeys f).contains x.1) ∘
      fun x : ν × Bool => (f x.1, x.2)) = fun x => !settings.configured.contains x.1 :=
    funext fun x => congrArg (!·) (OrderedMap.contains_mapKeys hconfigured x.1)
  simp only [ScopeGraph.addedNames, mapNames, OrderedMap.toList_mapKeys hconfigured,
    OrderedMap.toList_mapKeys hinlined, hpresets, List.filter_map, List.map_map, List.map_append]
  rfl

end GlobalSettings

namespace ScopeGraph

omit [DecidableEq ν] in
theorem nodup_globalNames (g : ScopeGraph ν) : g.globalNames.Nodup := by
  unfold globalNames
  cases g.tableOf .global with
  | none => exact List.nodup_nil
  | some table => exact table.nodup_keys

theorem eraseDups_of_nodup {names : List ν} (h : names.Nodup) : names.eraseDups = names := by
  induction names with
  | nil => rfl
  | cons name names ih =>
    rw [List.nodup_cons] at h
    have hfilter : (names.filter fun m => !m == name) = names :=
      List.filter_eq_self.2 fun m hm => by simp [ne_of_mem_of_not_mem hm h.1]
    rw [List.eraseDups_cons, hfilter, ih h.2]

/-- Names come in where they first occur. -/
theorem foldl_addName {names : List ν} (h : names.Nodup) (added : List ν) :
    added.foldl addName names = (names ++ added).eraseDups := by
  induction added generalizing names with
  | nil => rw [List.append_nil, eraseDups_of_nodup h, List.foldl_nil]
  | cons name added ih =>
    rw [List.foldl_cons, addName]
    split
    · next hmem =>
      rw [ih h, List.eraseDups_append, List.eraseDups_append]
      congr 2
      simp [List.removeAll, hmem]
    · next hmem =>
      have hnodup : (names ++ [name]).Nodup := by
        rw [List.nodup_append]
        exact ⟨h, List.nodup_singleton name, fun m hm m' hm' heq =>
          hmem (List.mem_singleton.1 hm' ▸ heq ▸ hm)⟩
      rw [ih hnodup, ← List.append_cons]

theorem exists_of_globalRecord? {g : ScopeGraph ν} {name : ν} {r : GlobalRecord}
    (h : g.globalRecord? name = some r) : ∃ v variable', g.globalVariable? name = some v ∧
      g.getVariable? v = some variable' ∧ variable'.record = r := by
  obtain ⟨variable', hvar, hrecord⟩ := Option.map_eq_some_iff.1 h
  obtain ⟨v, hv, hvar⟩ := Option.bind_eq_some_iff.1 hvar
  exact ⟨v, variable', hv, hvar, hrecord⟩

theorem globalRecord?_eq_some {g : ScopeGraph ν} {name : ν} {v : VariableId}
    {variable' : Variable ν} (hv : g.globalVariable? name = some v)
    (hvar : g.getVariable? v = some variable') :
    g.globalRecord? name = some variable'.record := by
  rw [globalRecord?, hv, Option.bind_some, hvar, Option.map_some]

theorem WellFormed.exists_globalVariable {g : ScopeGraph ν} (hg : g.WellFormed) {name : ν}
    (h : (g.globalVariable? name).isSome) :
    ∃ v variable', g.globalVariable? name = some v ∧ g.getVariable? v = some variable' := by
  obtain ⟨v, hv⟩ := Option.isSome_iff_exists.1 h
  obtain ⟨variable', hvar, -⟩ := hg.inTable hv
  exact ⟨v, variable', hv, hvar⟩

/-- The source says of its globals where it declares them, and nothing else. -/
theorem Walked.record_eq {g : ScopeGraph ν} {t : Tree} (hg : g.Walked t) {name : ν}
    {r : GlobalRecord} (h : g.globalRecord? name = some r) :
    r.isDeclared = true ∧ r = { definitions := r.definitions } := by
  obtain ⟨v, variable', hv, hvar, rfl⟩ := exists_of_globalRecord? h
  obtain ⟨hwritable, hused, hexported, hexplicit, hcomments, hsetting⟩ := hg.unconfigured hv hvar
  refine ⟨hg.declared hv hvar, ?_⟩
  rw [Variable.record, hwritable, hused, hexported, hexplicit, hcomments, hsetting]

theorem ite_markExported {r : GlobalRecord} (hused : r.used = false)
    (hexported : r.exported = false) (b : Bool) :
    (if b then r.markExported else r) = { r with used := b, exported := b } := by
  obtain ⟨definitions, writable, used, exported, explicitGlobal, comments, setting⟩ := r
  simp only at hused hexported
  cases b with
  | true => rfl
  | false => rw [if_neg Bool.false_ne_true, hused, hexported]

section Records

variable {walked source g : ScopeGraph ν} {t : Tree} {settings : GlobalSettings ν} {name : ν}
  (hrecord : g.globalRecord? name = settingsEffect settings name (source.globalRecord? name))
include hrecord

/-- A global that the source declares has nothing from the settings but its export. -/
theorem globalRecord?_of_declared (hwalked : walked.Walked t) (hframe : Frame [] walked source)
    {v : VariableId} {declared : Variable ν} (hv : source.globalVariable? name = some v)
    (hvar : source.getVariable? v = some declared) :
    declared.definitions ≠ #[] ∧ g.globalRecord? name = some {
      definitions := declared.definitions
      used := settings.exported.contains name
      exported := settings.exported.contains name } := by
  have hsource := globalRecord?_eq_some hv hvar
  have hold := hsource
  rw [hframe.globalRecord?] at hold
  obtain ⟨hdeclared, heq⟩ := hwalked.record_eq hold
  refine ⟨?_, ?_⟩
  · rintro hempty
    rw [GlobalRecord.isDeclared, Variable.record, hempty] at hdeclared
    cases hdeclared
  · rw [hrecord, hsource, settingsEffect_of_isDeclared settings name hdeclared, heq,
      ite_markExported rfl rfl]
    rfl

/-- Any other global has its record from the settings alone. -/
theorem globalRecord?_of_undeclared (hnone : source.globalVariable? name = none) :
    g.globalRecord? name =
      if (settings.inline? name).isSome ∨ (settings.value? name).isSome ∨
          (settings.preset? name).isSome then
        some {
          settings.combinedRecord name with
          used := settings.exported.contains name
          exported := settings.exported.contains name }
      else none := by
  have hsource : source.globalRecord? name = none := by rw [globalRecord?, hnone]; rfl
  rw [hrecord, hsource, settingsEffect_none, GlobalSettings.record?_eq]
  by_cases hentry : (settings.inline? name).isSome ∨ (settings.value? name).isSome ∨
      (settings.preset? name).isSome
  · rw [if_pos hentry, if_pos hentry, Option.map_some, ← ite_markExported rfl rfl]
    split <;> rfl
  · rw [if_neg hentry, if_neg hentry, Option.map_none, ite_self]

end Records

end ScopeGraph

/-- The global table has what the source declares, then what environments, configuration and
comments add. A global that the source declares only learns from them whether it is exported. Every
other global is there if a comment, the configuration or an environment has it, and a comment takes
precedence over the configured value and this over the first environment with the name. -/
theorem global_precedence {names names' : NameTable} {t : Tree} {o : LanguageOptions}
    {envs : Environments} {g : ScopeGraph Name} (h : analyze names t o envs = (names', .ok g)) :
    ∃ outline, t.outline? o = some outline ∧
      let source := ScopeGraph.ofSteps t (outline.map (.mapName names'.handle))
      g.globalNames = (source.globalNames ++
        (addedGlobals o envs t.comments).map names'.handle).eraseDups ∧
      ∀ name : String,
        let inlined := Comment.inlineGlobal? t.comments name
        let configured := o.configuredValue? name
        let preset := o.environmentValue? envs name
        let exported := Comment.isExported t.comments name
        (∀ v declared, source.globalVariable? (names'.handle name) = some v →
          source.getVariable? v = some declared → declared.definitions ≠ #[] ∧
          ∃ v' variable', g.globalVariable? (names'.handle name) = some v' ∧
            g.getVariable? v' = some variable' ∧
            variable'.record = {
              definitions := declared.definitions
              used := exported
              exported := exported }) ∧
        (source.globalVariable? (names'.handle name) = none →
          ((g.globalVariable? (names'.handle name)).isSome ↔
            inlined.isSome ∨ configured.isSome ∨ preset.isSome) ∧
          ∀ v variable', g.globalVariable? (names'.handle name) = some v →
            g.getVariable? v = some variable' →
            variable'.record = {
              writable := ((inlined.map (·.value.isWritable)).or
                (configured.map (·.isWritable))).or preset
              used := exported
              exported := exported
              explicitGlobal := inlined.isSome
              explicitGlobalComments := inlined.elim [] (·.comments)
              implicitGlobalSetting := configured.or (preset.map .ofBool) }) := by
  obtain ⟨outline, houtline, hnames, hg⟩ := outline?_of_analyze h
  obtain ⟨walked, hwalking, -, hsteps⟩ := exists_walking_ofSteps houtline names'.handle
  have hgraph := analyzed_of_analyze h
  have hf : ∀ k ∈ (GlobalSettings.ofFile o envs t.comments).names, ∀ k',
      names'.handle k = names'.handle k' → k = k' := by
    intro k hk k'
    apply NameTable.eq_of_handle_eq
    rw [hnames, NameTable.mem_texts_addAll]
    exact .inr hk
  have hframe := ScopeGraph.frame_closeGlobal hwalking.walked hwalking.settled hwalking.lt_size
  have hlist := ScopeGraph.globalNames_finalize hwalking.walked hwalking.settled
    hwalking.lt_size ((GlobalSettings.ofFile o envs t.comments).mapNames names'.handle)
  have hrecord := ScopeGraph.globalRecord?_finalize hwalking.walked hwalking.settled
    hwalking.lt_size ((GlobalSettings.ofFile o envs t.comments).mapNames names'.handle)
  rw [← hsteps] at hframe hlist hrecord
  rw [← ScopeGraph.ofOutline, ← hg] at hlist hrecord
  have hexported (name : String) :
      ((GlobalSettings.ofFile o envs t.comments).mapNames names'.handle).exported.contains
        (names'.handle name) = Comment.isExported t.comments name := by
    rw [GlobalSettings.contains_exported_mapNames hf, GlobalSettings.contains_exported_ofFile]
  refine ⟨outline, houtline, ?_, fun name => ⟨?_, ?_⟩⟩
  · rw [hlist, ScopeGraph.foldl_addName (ScopeGraph.nodup_globalNames _),
      GlobalSettings.addedNames_mapNames hf, GlobalSettings.addedNames_ofFile]
  · intro v declared hv hvar
    obtain ⟨hdeclared, hglobal⟩ := ScopeGraph.globalRecord?_of_declared (hrecord _)
      hwalking.walked hframe hv hvar
    rw [hexported] at hglobal
    exact ⟨hdeclared, ScopeGraph.exists_of_globalRecord? hglobal⟩
  · intro hnone
    have hglobal := ScopeGraph.globalRecord?_of_undeclared (hrecord _) hnone
    rw [hexported, GlobalSettings.combinedRecord_mapNames hf, GlobalSettings.inline?_mapNames hf,
      GlobalSettings.value?_mapNames hf, GlobalSettings.preset?_mapNames hf,
      GlobalSettings.combinedRecord, GlobalSettings.inline?_ofFile, GlobalSettings.value?_ofFile,
      GlobalSettings.preset?_ofFile] at hglobal
    constructor
    · rw [← ScopeGraph.isSome_globalRecord? hgraph.toWellFormed, hglobal, Option.isSome_ite]
    · intro v variable' hv hvar
      rw [ScopeGraph.globalRecord?_eq_some hv hvar] at hglobal
      split at hglobal
      · exact Option.some.inj hglobal
      · cases hglobal

/-- `/* global b: off, e */ var c` -/
def listedAndOff : Build NodeId := do
  let _ ← .comment .block "global b: off, e"
  let c ← .declare .varDecl "c" none
  .alloc (.program [c] .script)

/-- Both environments have `a` and `b`, and the second one has `d` twice. -/
def overlapping : Environments :=
  let none : Environments := {}
  (none.register "first" { readonly := ["a"], writable := ["b", "x"] }).register
    "second" { readonly := ["b", "d"], writable := ["a", "d"] }

def withoutX : LanguageOptions :=
  ({ env := ["first", "unknown", "second"] } : LanguageOptions).withGlobal "x" .off

set_option synthInstance.maxSize 512 in
/-- The first environment makes `b` writable, which the directive leaves, and the second one makes
`d` readonly. The unknown environment is passed over, and `x` is configured as off. -/
theorem globals_of_overlapping : ∃ t names g, Build.tree listedAndOff = .ok t ∧
    analyze {} t withoutX overlapping = (names, .ok g) ∧
    g.globalNames = ["c", "a", "b", "d", "e"].map names.handle ∧
    g.globalVariable? (names.handle "x") = none ∧
    (∃ v variable', g.globalVariable? (names.handle "b") = some v ∧
      g.getVariable? v = some variable' ∧
      variable'.record = { writable := some true, implicitGlobalSetting := some .writable }) ∧
    ∃ v variable', g.globalVariable? (names.handle "d") = some v ∧
      g.getVariable? v = some variable' ∧
      variable'.record = { writable := some false, implicitGlobalSetting := some .readonly } := by
  obtain ⟨t, names, g, ht, h, hsource, hadded, hinlined, hexported⟩ :=
    exists_analysis listedAndOff withoutX overlapping (fun t names _ =>
      (t.outline? withoutX).all (fun outline =>
        let source := ScopeGraph.ofSteps t (outline.map (.mapName names.handle))
        source.globalNames = [names.handle "c"] ∧
        ∀ name ∈ ["x", "b", "d"], source.globalVariable? (names.handle name) = none) = true ∧
      ([names.handle "c"] ++
        (addedGlobals withoutX overlapping t.comments).map names.handle).eraseDups =
          ["c", "a", "b", "d", "e"].map names.handle ∧
      (∀ name ∈ ["x", "b", "d"], Comment.inlineGlobal? t.comments name = none) ∧
      ∀ name ∈ ["x", "b", "d"], Comment.isExported t.comments name = false) (by decide +kernel)
  have hg := (analyzed_of_analyze h).toWellFormed
  obtain ⟨outline, houtline, hnames, hglobals⟩ := global_precedence h
  rw [houtline, Option.all_some, decide_eq_true_eq] at hsource
  obtain ⟨hsource, habsent⟩ := hsource
  obtain ⟨hx, -⟩ := (hglobals "x").2 (habsent "x" (by simp))
  obtain ⟨hb, hbrecord⟩ := (hglobals "b").2 (habsent "b" (by simp))
  obtain ⟨hd, hdrecord⟩ := (hglobals "d").2 (habsent "d" (by simp))
  have hxconfigured : withoutX.configuredValue? "x" = none := by decide
  have hxpreset : withoutX.environmentValue? overlapping "x" = none := by decide
  have hbconfigured : withoutX.configuredValue? "b" = none := by decide
  have hbpreset : withoutX.environmentValue? overlapping "b" = some true := by decide
  have hdconfigured : withoutX.configuredValue? "d" = none := by decide
  have hdpreset : withoutX.environmentValue? overlapping "d" = some false := by decide
  refine ⟨t, names, g, ht, h, ?_, ?_, ?_, ?_⟩
  · rw [hnames, hsource, hadded]
  · rw [hinlined "x" (by simp), hxconfigured, hxpreset] at hx
    simpa using hx
  · obtain ⟨v, variable', hv, hvar⟩ := hg.exists_globalVariable
      (hb.2 (.inr (.inr (by rw [hbpreset]; rfl))))
    refine ⟨v, variable', hv, hvar, ?_⟩
    rw [hbrecord v variable' hv hvar, hinlined "b" (by simp), hexported "b" (by simp),
      hbconfigured, hbpreset]
    rfl
  · obtain ⟨v, variable', hv, hvar⟩ := hg.exists_globalVariable
      (hd.2 (.inr (.inr (by rw [hdpreset]; rfl))))
    refine ⟨v, variable', hv, hvar, ?_⟩
    rw [hdrecord v variable' hv hvar, hinlined "d" (by simp), hexported "d" (by simp),
      hdconfigured, hdpreset]
    rfl

end LexicalScope
