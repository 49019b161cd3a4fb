import LexicalScope.Proofs.Enclosing
import LexicalScope.Proofs.GlobalSources
import LexicalScope.Proofs.NameLookup
import LexicalScope.Proofs.StepOrigins

/-!
What an analysis adds to a name table that has the names of its tree. The walk adds `arguments` at
most; the settings add their names, whether or not they make variables of them. A table only
grows at its end, so handles stay as they are and a second analysis finds all names in place.
-/
namespace LexicalScope

namespace NameTable

variable {names : NameTable} {text : String}

theorem add_of_mem (h : text ∈ names.texts) : names.add text = names := by
  have hcontains : names.contains text := by simpa [contains] using h
  rw [add, dif_pos hcontains]

/-- Names that are in the table add nothing. -/
theorem addAll_of_subset {added : List String} (h : ∀ text ∈ added, text ∈ names.texts) :
    names.addAll added = names := by
  induction added with
  | nil => rfl
  | cons text added ih =>
    obtain ⟨htext, hadded⟩ := List.forall_mem_cons.1 h
    show (names.add text).addAll added = names
    rw [add_of_mem htext, ih hadded]

theorem addAll_append (names : NameTable) (added added' : List String) :
    names.addAll (added ++ added') = (names.addAll added).addAll added' :=
  List.foldl_append

theorem get?_addAll {n : Name} (h : names.get? text = some n) (added : List String) :
    (names.addAll added).get? text = some n :=
  get?_eq_some_iff.2 (resolve?_addAll (get?_eq_some_iff.1 h) added)

end NameTable

section Settings

variable {t : Tree} {o : LanguageOptions} {envs : Environments} {text : String}

/-- The settings of a file name `text`. -/
inductive NamedBySettings (t : Tree) (o : LanguageOptions) (envs : Environments) (text : String) :
    Prop
  | preset {env : String} {preset : EnvironmentPreset} (henv : env ∈ o.env)
      (hknown : envs.get? env = some preset)
      (htext : text ∈ preset.readonly ∨ text ∈ preset.writable)
  | configured (htext : text ∈ o.globals.keys)
  | inlined {c : Comment} {value : GlobalValue} (hc : c ∈ t.comments)
      (htext : (text, value) ∈ c.globalEntries)
  | exported {c : Comment} (hc : c ∈ t.comments) (htext : text ∈ c.exportedNames)

/-- Enabled environments name what their presets list; unknown ones name nothing. -/
theorem mem_environmentNames_iff : text ∈ o.environmentNames envs ↔
    ∃ env preset, env ∈ o.env ∧ envs.get? env = some preset ∧
      (text ∈ preset.readonly ∨ text ∈ preset.writable) := by
  rw [LanguageOptions.environmentNames, List.mem_flatMap]
  constructor
  · rintro ⟨env, henv, htext⟩
    cases hknown : envs.get? env with
    | none =>
      rw [hknown] at htext
      cases htext
    | some preset =>
      rw [hknown, Option.elim_some, List.mem_append] at htext
      exact ⟨env, preset, henv, hknown, htext⟩
  · rintro ⟨env, preset, henv, hknown, htext⟩
    exact ⟨env, henv, by rwa [hknown, Option.elim_some, List.mem_append]⟩

/-- The names of the settings are those of their four sources. -/
theorem mem_names_ofFile_iff :
    text ∈ (GlobalSettings.ofFile o envs t.comments).names ↔ NamedBySettings t o envs text := by
  rw [GlobalSettings.names, GlobalSettings.ofFile]
  dsimp only
  rw [DirectiveTable.keys_globals_ofComments, DirectiveTable.keys_exported_ofComments,
    map_fst_flatMap_toList]
  simp only [List.mem_append, List.mem_eraseDups, List.mem_map, List.mem_flatMap,
    mem_environmentNames_iff, Array.mem_toList_iff]
  constructor
  · rintro (((⟨⟨_, value⟩, ⟨c, hc, htext⟩, rfl⟩ | ⟨c, hc, htext⟩) | htext) |
      ⟨env, preset, henv, hknown, htext⟩)
    · exact .inlined hc htext
    · exact .exported hc htext
    · exact .configured htext
    · exact .preset henv hknown htext
  · rintro (⟨henv, hknown, htext⟩ | htext | ⟨hc, htext⟩ | ⟨hc, htext⟩)
    · exact .inr ⟨_, _, henv, hknown, htext⟩
    · exact .inl (.inr htext)
    · exact .inl (.inl (.inl ⟨_, ⟨_, hc, htext⟩, rfl⟩))
    · exact .inl (.inl (.inr ⟨_, hc, htext⟩))

end Settings

section Outline

variable {t : Tree} {o : LanguageOptions} {outline : Outline} {text : String}

theorem mem_mentionedNames_of_spells {n : NodeId} (h : t.Spells n text) :
    text ∈ t.mentionedNames := by
  obtain ⟨kind, hkind, hname⟩ := Option.bind_eq_some_iff.1 h
  obtain ⟨hlt, rfl⟩ := Tree.kind?_eq_some_iff.1 hkind
  refine List.mem_filterMap.2 ⟨_, Array.getElem_mem_toList hlt, ?_⟩
  cases hnode : t.nodes[n.index].kind with
  | identifier name =>
    rw [hnode] at hname
    exact hname
  | _ =>
    rw [hnode] at hname
    cases hname

/-- The steps of a program have no names but those of its tree and `arguments`. -/
theorem name_of_mem_outline (houtline : t.outline? o = some outline)
    (h : text ∈ outline.filterMap Step.name?) :
    text ∈ t.mentionedNames ∨ text = "arguments" ∧
      ∃ n strict, .enter .function n strict ∈ outline ∧ t.isArrow n = false := by
  obtain ⟨step, hstep, hname⟩ := List.mem_filterMap.1 h
  have hspelled (hleave : ∀ block, step ≠ .leave block) : step.IsSpelled t.Spells := by
    obtain ⟨l, hl, rfl⟩ := Step.exists_mem_trace [] hstep hleave
    exact spelled_of_mem_trace houtline hl
  cases step with
  | declare place name d =>
    obtain rfl := Option.some.inj hname
    cases d with
    | none => exact .inr ((undefined_mem_outline_iff houtline).1 ⟨place, hstep⟩)
    | some d => exact .inl (mem_mentionedNames_of_spells (hspelled fun _ => by simp).2)
  | refer occurrence =>
    obtain rfl := Option.some.inj hname
    exact .inl (mem_mentionedNames_of_spells (hspelled fun _ => by simp))
  | _ => cases hname

end Outline

section Scopes

variable {t : Tree} {kind : ScopeKind} {n : NodeId}

/-- The steps that open scopes are those of the regions. -/
theorem exists_mem_regions_iff {steps : Outline} :
    (∃ blocks, ⟨kind, n :: blocks⟩ ∈ Located.regions (Step.trace [] steps)) ↔
      ∃ strict, .enter kind n strict ∈ steps := by
  constructor
  · rintro ⟨blocks, h⟩
    obtain ⟨⟨blocks', step⟩, hl, hregion⟩ := List.mem_filterMap.1 h
    cases step with
    | enter kind' block strict =>
      obtain ⟨rfl, hblocks⟩ := Region.mk.inj (Option.some.inj hregion)
      obtain ⟨rfl, -⟩ := List.cons.inj hblocks
      exact ⟨strict, Step.mem_of_mem_trace hl⟩
    | _ => cases hregion
  · rintro ⟨strict, h⟩
    obtain ⟨⟨blocks, step⟩, hl, rfl⟩ := Step.exists_mem_trace [] h fun _ => by simp
    exact ⟨blocks, List.mem_filterMap.2 ⟨_, hl, rfl⟩⟩

namespace ScopeGraph

variable {ν : Type} {g : ScopeGraph ν}

/-- Whether a scope of this kind is anchored at `n`. -/
def HasScope (g : ScopeGraph ν) (kind : ScopeKind) (n : NodeId) : Prop :=
  ∃ s scope, g.getScope? s = some scope ∧ scope.kind = kind ∧ scope.block = n

/-- A scope of a kind at a node shows in its region. -/
theorem hasScope_iff (hg : g.Rooted) : g.HasScope kind n ↔
    ∃ blocks, some ⟨kind, n :: blocks⟩ ∈ g.scopeIds.map g.region? := by
  simp only [List.mem_map, mem_scopeIds_iff, region?_eq_some_iff]
  constructor
  · rintro ⟨s, scope, hs, rfl, rfl⟩
    have hsize := lt_of_getScope? hs
    obtain ⟨block, hblock, hblocks⟩ := hg.blocksOf_eq hsize
    rw [blockOf, hs] at hblock
    obtain rfl := Option.some.inj hblock
    exact ⟨_, s, hsize, by rw [kindOf?, hs]; rfl, hblocks⟩
  · rintro ⟨blocks, s, hsize, hkind, hblocks⟩
    have hblock := hg.head?_blocksOf hsize
    rw [hblocks] at hblock
    obtain ⟨scope, hs, rfl⟩ := Option.map_eq_some_iff.1 hkind
    rw [blockOf, hs] at hblock
    exact ⟨s, scope, hs, rfl, (Option.some.inj hblock).symm⟩

end ScopeGraph

end Scopes

section Analyze

variable {names names' : NameTable} {t : Tree} {o : LanguageOptions} {envs : Environments}
  {g : ScopeGraph Name} {outline : Outline} {text : String}

def Tree.enteredNames (t : Tree) (o : LanguageOptions) (envs : Environments) : List String :=
  (t.outline? o).elim [] fun outline =>
    (Step.reached outline).filterMap Step.name? ++
      if (outline.findSome? Step.misplacedImport?).isSome then []
      else (GlobalSettings.ofFile o envs t.comments).names

/-- An analysis adds the names of its steps and then those of its settings. -/
theorem fst_analyze (names : NameTable) (t : Tree) (o : LanguageOptions) (envs : Environments) :
    (analyze names t o envs).1 = names.addAll (t.enteredNames o envs) := by
  rw [analyze, Tree.enteredNames]
  cases t.outline? o with
  | none => rfl
  | some outline =>
    dsimp only [Option.elim_some]
    rw [NameTable.addAll_append]
    cases outline.findSome? Step.misplacedImport? <;> rfl

/-- The steps that open scopes are those of the graph. -/
theorem hasScope_iff_of_analyze (h : analyze names t o envs = (names', .ok g))
    (houtline : t.outline? o = some outline) {kind : ScopeKind} {n : NodeId} :
    g.HasScope kind n ↔ ∃ strict, .enter kind n strict ∈ outline := by
  obtain ⟨outline', houtline', hregions⟩ := map_region?_of_analyze h
  obtain rfl := Option.some.inj (houtline.symm.trans houtline')
  rw [ScopeGraph.hasScope_iff (analyzed_of_analyze h).toRooted, hregions,
    ← exists_mem_regions_iff]
  simp

theorem mem_of_mem_reached {steps : Outline}
    (h : text ∈ (Step.reached steps).filterMap Step.name?) : text ∈ steps.filterMap Step.name? :=
  ((List.takeWhile_sublist _).filterMap _).subset h

/-- A failed analysis has come no further than the walk. -/
theorem mem_outline_of_error {e : ScopeError} (h : (analyze names t o envs).2 = .error e)
    (htext : text ∈ t.enteredNames o envs) :
    ∃ outline, t.outline? o = some outline ∧ text ∈ outline.filterMap Step.name? := by
  rw [Tree.enteredNames] at htext
  cases houtline : t.outline? o with
  | none =>
    rw [houtline] at htext
    cases htext
  | some outline =>
    rw [houtline, Option.elim_some, List.mem_append] at htext
    refine ⟨outline, rfl, mem_of_mem_reached (htext.resolve_right fun hsettings => ?_)⟩
    rw [analyze, houtline] at h
    cases hstop : outline.findSome? Step.misplacedImport? with
    | some n =>
      rw [hstop] at hsettings
      cases hsettings
    | none =>
      dsimp only at h
      rw [hstop] at h
      cases h

/-- A failed analysis adds at most `arguments`. -/
theorem mem_texts_of_error (hnames : ∀ name ∈ t.mentionedNames, name ∈ names.texts)
    {e : ScopeError} (h : (analyze names t o envs).2 = .error e)
    (htext : text ∈ (analyze names t o envs).1.texts) :
    text ∈ names.texts ∨ text = "arguments" := by
  rw [fst_analyze, NameTable.mem_texts_addAll] at htext
  rcases htext with htext | htext
  · exact .inl htext
  · obtain ⟨outline, houtline, htext⟩ := mem_outline_of_error h htext
    exact (name_of_mem_outline houtline htext).imp (hnames text) And.left

/-- A successful analysis adds `arguments` for functions and the names of the settings. -/
theorem mem_texts_iff_of_ok (hnames : ∀ name ∈ t.mentionedNames, name ∈ names.texts)
    (h : analyze names t o envs = (names', .ok g)) : text ∈ names'.texts ↔
      text ∈ names.texts ∨
      (text = "arguments" ∧ ∃ n, g.HasScope .function n ∧ t.isArrow n = false) ∨
      NamedBySettings t o envs text := by
  obtain ⟨outline, houtline, hnames', -⟩ := outline?_of_analyze h
  have hscope : (∃ n, g.HasScope .function n ∧ t.isArrow n = false) ↔
      ∃ n strict, .enter .function n strict ∈ outline ∧ t.isArrow n = false := by
    simp only [hasScope_iff_of_analyze h houtline, exists_and_right]
  rw [← mem_names_ofFile_iff, hscope]
  constructor
  · intro htext
    rw [hnames', NameTable.mem_texts_addAll, NameTable.mem_texts_addAll] at htext
    rcases htext with (htext | htext) | htext
    · exact .inl htext
    · rcases name_of_mem_outline houtline (mem_of_mem_reached htext) with hmentioned | harguments
      · exact .inl (hnames text hmentioned)
      · exact .inr (.inl harguments)
    · exact .inr (.inr htext)
  · rintro (htext | harguments | htext)
    · rw [hnames', NameTable.mem_texts_addAll, NameTable.mem_texts_addAll]
      exact .inl (.inl htext)
    · obtain ⟨place, hstep⟩ := (undefined_mem_outline_iff houtline).2 harguments
      exact mem_texts_of_analyze h houtline (List.mem_filterMap.2 ⟨_, hstep, rfl⟩)
    · rw [hnames', NameTable.mem_texts_addAll]
      exact .inr htext

/-- What an analysis makes of a table that has the names of the tree. -/
theorem interned_by_analyze (hnames : ∀ name ∈ t.mentionedNames, name ∈ names.texts)
    {outcome : Except ScopeError (ScopeGraph Name)}
    (h : analyze names t o envs = (names', outcome)) :
    (∀ g, outcome = .ok g → ∀ text, text ∈ names'.texts ↔
      text ∈ names.texts ∨
      (text = "arguments" ∧ ∃ n, g.HasScope .function n ∧ t.isArrow n = false) ∨
      NamedBySettings t o envs text) ∧
    (∀ e, outcome = .error e → ∀ text ∈ names'.texts, text ∈ names.texts ∨ text = "arguments") ∧
    (∀ text n, names.get? text = some n → names'.get? text = some n) ∧
    ∀ later : NameTable, (∀ text ∈ names'.texts, text ∈ later.texts) →
      (analyze later t o envs).1 = later := by
  have hfst : names' = names.addAll (t.enteredNames o envs) := by
    rw [← fst_analyze, h]
  refine ⟨?_, ?_, ?_, ?_⟩
  · rintro g rfl text
    exact mem_texts_iff_of_ok hnames h
  · rintro e rfl text htext
    exact mem_texts_of_error hnames (by rw [h]) (by rwa [h])
  · intro text n hn
    rw [hfst]
    exact NameTable.get?_addAll hn _
  · intro later hlater
    rw [fst_analyze]
    refine NameTable.addAll_of_subset fun text htext => hlater text ?_
    rw [hfst, NameTable.mem_texts_addAll]
    exact .inr htext

/-- `/* global a:off */ (function () { b; })` -/
def mentionsB : Build NodeId := do
  let _ ← Build.comment .block "global a:off"
  let f ← .functionExpression none [] [← .alloc (.expressionStatement (← .identifier "b") none)]
  .alloc (.program [← .alloc (.expressionStatement f none)] .script)

def libraryAndOff : LanguageOptions :=
  ({ env := ["unknown", "library"] } : LanguageOptions).withGlobal "x" .off

def library : Environments :=
  let none : Environments := {}
  none.register "library" { readonly := ["r"], writable := ["w"] }

/-- A table that has `b` gets the names of the function, of the directive, of the options and of
the known environment, and a second analysis leaves it as it is. -/
theorem interned_mentionsB : ∃ t names g, Build.tree mentionsB = .ok t ∧
    analyze (({} : NameTable).add "b") t libraryAndOff library = (names, .ok g) ∧
    t.mentionedNames = ["b"] ∧
    (∀ name ∈ t.mentionedNames, name ∈ (({} : NameTable).add "b").texts) ∧
    names.texts = #["b", "arguments", "a", "x", "r", "w"] ∧ "w" ∈ names.texts ∧
    (analyze names t libraryAndOff library).1 = names := by
  obtain ⟨t, names, g, ht, h, hmentioned, htexts⟩ :=
    exists_analysis_from (({} : NameTable).add "b") mentionsB libraryAndOff library
      (fun t names _ => t.mentionedNames = ["b"] ∧
        names.texts = #["b", "arguments", "a", "x", "r", "w"]) (by decide +kernel)
  have hnames : ∀ name ∈ t.mentionedNames, name ∈ (({} : NameTable).add "b").texts := by
    rw [hmentioned]
    decide +kernel
  obtain ⟨hok, -, -, hagain⟩ := interned_by_analyze hnames h
  have hknown : library.get? "library" = some { readonly := ["r"], writable := ["w"] } := by decide
  have hw : NamedBySettings t libraryAndOff library "w" :=
    .preset (by decide) hknown (.inr (List.mem_singleton_self _))
  exact ⟨t, names, g, ht, h, hmentioned, hnames, htexts, (hok g rfl "w").2 (.inr (.inr hw)),
    hagain names fun _ htext => htext⟩

end Analyze

end LexicalScope
