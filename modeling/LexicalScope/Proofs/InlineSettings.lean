import LexicalScope.Proofs.Analyzed
import LexicalScope.Proofs.Comments
import LexicalScope.Proofs.DirectiveText
import LexicalScope.Proofs.Provenance

/-!
Globals by comment and by configuration. A comment that lists globals leaves a file with the same
graph as a configuration that sets them one after the other: the last value of a name counts, in
the place of its first one, and `off` takes a name out. Only the comment itself shows in the graph.
-/
namespace LexicalScope

namespace OrderedMap

variable {κ α β : Type} [DecidableEq κ] {f : α → β} {m : OrderedMap κ α} {m' : OrderedMap κ β}

omit [DecidableEq κ] in
/-- There is one map without entries. -/
theorem eq_empty_of_isEmpty (h : m.isEmpty) : m = {} := by
  have horder : m.order = #[] := Array.isEmpty_iff.1 h
  have hslots : m.slots.entries = [] := by
    refine List.eq_nil_iff_forall_not_mem.2 fun e he => Array.not_mem_empty e.1 ?_
    rw [← horder, m.mem_order]
    exact List.mem_map_of_mem he
  exact eq_of_keys (congrArg Array.toList horder) (Slots.eq_of_entries hslots)

/-- The map has the keys of `m` in their order, each with what `f` makes of its value. -/
structure Projects (f : α → β) (m : OrderedMap κ α) (m' : OrderedMap κ β) : Prop where
  keys : m'.keys = m.keys
  get? : ∀ k, m'.get? k = (m.get? k).map f

namespace Projects

theorem empty (f : α → β) : Projects f ({} : OrderedMap κ α) {} where
  keys := rfl
  get? _ := rfl

/-- Entering a value and what `f` makes of it keeps two maps alike. -/
theorem insert (h : Projects f m m') (k : κ) (v : α) :
    Projects f (m.insert k v) (m'.insert k (f v)) where
  keys := by rw [keys_insert, keys_insert, h.keys]
  get? k' := by
    rw [get?_insert, get?_insert, h.get?]
    split <;> rfl

theorem toList (h : Projects f m m') : m'.toList = m.toList.map fun e => (e.1, f e.2) := by
  rw [OrderedMap.toList, h.keys, OrderedMap.toList, List.map_filterMap]
  apply List.filterMap_congr
  intro k _
  rw [h.get?, Option.map_map, Option.map_map]
  rfl

/-- Maps made of alike entries are alike. -/
theorem ofList (f : α → β) (entries : List (κ × α)) :
    Projects f (ofList entries) (ofList (entries.map fun e => (e.1, f e.2))) := by
  induction entries using List.reverseRecOn with
  | nil => exact empty f
  | append_singleton entries e ih =>
    rw [List.map_append, List.map_singleton, ofList_concat, ofList_concat]
    exact ih.insert e.1 e.2

/-- Renaming keeps two maps alike. -/
theorem mapKeys {μ : Type} [DecidableEq μ] (h : Projects f m m') (rename : κ → μ) :
    Projects f (m.mapKeys rename) (m'.mapKeys rename) := by
  have hentries : m'.toList.map (fun e => (rename e.1, e.2)) =
      (m.toList.map fun e => (rename e.1, e.2)).map fun e => (e.1, f e.2) := by
    rw [h.toList, List.map_map, List.map_map]
    rfl
  rw [OrderedMap.mapKeys, OrderedMap.mapKeys, hentries]
  exact ofList f _

end Projects

end OrderedMap

/-- Whatever stood under a name, its value is now that of the last entry. -/
theorem DirectiveTable.projects_addGlobal {globals : OrderedMap String InlineGlobal}
    {configured : OrderedMap String GlobalValue}
    (h : OrderedMap.Projects InlineGlobal.value globals configured) (c : CommentId)
    (entry : String × GlobalValue) :
    OrderedMap.Projects InlineGlobal.value (addGlobal c globals entry)
      (configured.insert entry.1 entry.2) := by
  obtain ⟨name, value⟩ := entry
  have hinsert := h.insert name
    (((globals.get? name).map fun (g : InlineGlobal) => g.again value c).getD ⟨value, [c]⟩)
  have hvalue : (((globals.get? name).map fun (g : InlineGlobal) => g.again value c).getD
      ⟨value, [c]⟩).value = value := by
    cases globals.get? name <;> rfl
  rwa [hvalue] at hinsert

theorem DirectiveTable.projects_foldl_addGlobal {globals : OrderedMap String InlineGlobal}
    {configured : OrderedMap String GlobalValue}
    (h : OrderedMap.Projects InlineGlobal.value globals configured) (c : CommentId)
    (entries : List (String × GlobalValue)) :
    OrderedMap.Projects InlineGlobal.value (entries.foldl (addGlobal c) globals)
      (entries.foldl (fun m entry => m.insert entry.1 entry.2) configured) := by
  induction entries generalizing globals configured with
  | nil => exact h
  | cons entry entries ih => exact ih (projects_addGlobal h c entry)

namespace LanguageOptions

def withGlobals (o : LanguageOptions) (entries : List GlobalEntry) : LanguageOptions :=
  entries.foldl (fun o e => o.withGlobal e.name e.value) o

/-- Configuring globals changes nothing else about the options. -/
theorem withGlobals_eq (o : LanguageOptions) (entries : List GlobalEntry) :
    o.withGlobals entries =
      { o with
        globals := (entries.map (·.setting)).foldl (fun m e => m.insert e.1 e.2) o.globals } := by
  induction entries generalizing o with
  | nil => rfl
  | cons e entries ih => exact ih (o.withGlobal e.name e.value)

theorem outline?_withGlobals (t : Tree) (o : LanguageOptions) (entries : List GlobalEntry) :
    t.outline? (o.withGlobals entries) = t.outline? o := by
  rw [withGlobals_eq]
  rfl

end LanguageOptions

namespace GlobalSettings

variable {ν μ : Type} [DecidableEq ν] [DecidableEq μ]

/-- Settings whose globals come from comments only, beside settings where the same globals are
configured only. -/
structure Inlines (inline options : GlobalSettings ν) : Prop where
  presets : inline.presets = []
  presets_options : options.presets = []
  configured : inline.configured = {}
  inlined : options.inlined = {}
  exported : inline.exported = {}
  exported_options : options.exported = {}
  projects : OrderedMap.Projects InlineGlobal.value inline.inlined options.configured

namespace Inlines

variable {inline options : GlobalSettings ν} (h : Inlines inline options)
include h

theorem names : inline.names = options.names := by
  rw [GlobalSettings.names, GlobalSettings.names, h.presets, h.presets_options, h.configured,
    h.inlined, h.exported, h.exported_options, h.projects.keys]
  simp [OrderedMap.keys]

theorem mapNames (f : ν → μ) : Inlines (inline.mapNames f) (options.mapNames f) where
  presets := by rw [GlobalSettings.mapNames, h.presets, List.map_nil]
  presets_options := by rw [GlobalSettings.mapNames, h.presets_options, List.map_nil]
  configured := by rw [GlobalSettings.mapNames, h.configured, OrderedMap.mapKeys_empty]
  inlined := by rw [GlobalSettings.mapNames, h.inlined, OrderedMap.mapKeys_empty]
  exported := by rw [GlobalSettings.mapNames, h.exported, OrderedMap.mapKeys_empty]
  exported_options := by
    rw [GlobalSettings.mapNames, h.exported_options, OrderedMap.mapKeys_empty]
  projects := h.projects.mapKeys f

/-- The same globals enter the graph either way, with the same effect on what waited for them. -/
theorem finalize (g : ScopeGraph ν) :
    (g.finalize inline).withoutProvenance = (g.finalize options).withoutProvenance := by
  have hinline : g.finalize inline =
      (inline.inlined.toList.foldl ScopeGraph.applyInlined g).resolveThrough.pruneImplicit := by
    rw [ScopeGraph.finalize, h.presets, h.configured, h.exported]
    rfl
  have hoptions : g.finalize options =
      (options.configured.toList.foldl ScopeGraph.applyConfigured
        g).resolveThrough.pruneImplicit := by
    rw [ScopeGraph.finalize, h.presets_options, h.inlined, h.exported_options]
    rfl
  rw [hinline, hoptions, h.projects.toList]
  simp only [ScopeGraph.withoutProvenance_pruneImplicit,
    ScopeGraph.withoutProvenance_resolveThrough,
    ScopeGraph.withoutProvenance_foldl_applyInlined,
    ScopeGraph.withoutProvenance_foldl_applyConfigured]

end Inlines

end GlobalSettings

section Analyze

variable {t : Tree} {o : LanguageOptions} (envs : Environments) {entries : List GlobalEntry}
  (hne : entries ≠ []) (hcomments : ∀ c ∈ t.comments, c.isDirective = false) (henv : o.env = [])
  (hglobals : o.globals.isEmpty)
include hne hcomments henv hglobals

/-- The comment brings into the settings what configuring the globals would. -/
theorem inlines_globalDirective (i : Nat) (span : Span) :
    (GlobalSettings.ofFile o envs
        (t.insertComment i ⟨.block, globalDirective entries, span⟩).comments).Inlines
      (.ofFile (o.withGlobals entries) envs t.comments) := by
  have hdirective := DirectiveTable.ofComments_insertComment hcomments i
    (c := ⟨.block, globalDirective entries, span⟩) rfl (ofComment?_globalDirective hne)
  have hnone := DirectiveTable.ofComments_eq_empty hcomments
  have hempty := OrderedMap.eq_empty_of_isEmpty hglobals
  rw [LanguageOptions.withGlobals_eq]
  unfold GlobalSettings.ofFile
  rw [hdirective, hnone, henv, hempty]
  exact {
    presets := rfl
    presets_options := rfl
    configured := rfl
    inlined := rfl
    exported := rfl
    exported_options := rfl
    projects := DirectiveTable.projects_foldl_addGlobal (.empty _) _ _ }

/-- A file with one comment that lists globals comes out as without the comment, but with these
globals configured in their order. Either analysis fails with the same error, or both graphs agree
in everything but what says that a comment or the configuration has brought a global in. -/
theorem analyze_globalDirective (names : NameTable) (i : Nat) (span : Span) :
    let commented := t.insertComment i ⟨.block, globalDirective entries, span⟩
    (analyze names commented o envs).1 = (analyze names t (o.withGlobals entries) envs).1 ∧
      (analyze names commented o envs).2.map (·.withoutProvenance) =
        (analyze names t (o.withGlobals entries) envs).2.map (·.withoutProvenance) := by
  intro commented
  have hinlines := inlines_globalDirective envs hne hcomments henv hglobals i span
  have houtline : commented.outline? o = t.outline? (o.withGlobals entries) := by
    rw [LanguageOptions.outline?_withGlobals]
    exact t.outline?_withComments _ o
  unfold analyze
  rw [houtline]
  cases t.outline? (o.withGlobals entries) with
  | none => exact ⟨rfl, rfl⟩
  | some outline =>
    dsimp only
    cases outline.findSome? Step.misplacedImport? with
    | some declaration => exact ⟨rfl, rfl⟩
    | none =>
      dsimp only
      rw [hinlines.names]
      refine ⟨rfl, congrArg Except.ok ?_⟩
      have hsteps := ScopeGraph.ofOutline_withComments (ν := Name) t commented.comments
      exact (congrArg ScopeGraph.withoutProvenance (hsteps _ _)).trans
        ((hinlines.mapNames _).finalize _)

end Analyze

/-- `/* global */ a = b`; the comment is no directive, as nothing follows its keyword. -/
def keywordOnly : Build NodeId := do
  let _ ← .comment .block "global"
  let assignment ← .alloc (.assignmentExpression .assign (← .identifier "a") (← .identifier "b"))
  .alloc (.program [← .alloc (.expressionStatement assignment none)] .script)

/-- `b:false, a:off, b:writeable` -/
def repeatedEntries : List GlobalEntry :=
  [⟨"b", "false", .readonly, by decide, by decide⟩, ⟨"a", "off", .off, by decide, by decide⟩,
    ⟨"b", "writeable", .writable, by decide, by decide⟩]

/-- A name listed twice is writable after its last value; one that is off stays implicit. -/
theorem analyze_repeatedEntries : ∃ t names g, Build.tree keywordOnly = .ok t ∧
    analyze {} t (({} : LanguageOptions).withGlobals repeatedEntries) {} = (names, .ok g) ∧
    g.implicit.table.keys = [names.handle "a"] ∧
    ((g.globalVariable? (names.handle "b")).bind g.getVariable?).map (·.writable) =
      some (some true) ∧
    (analyze {} (t.insertComment 0 ⟨.block, "global b:false, a:off, b:writeable", {}⟩) {} {}).1 =
      names ∧
    (analyze {} (t.insertComment 0 ⟨.block, "global b:false, a:off, b:writeable", {}⟩) {} {}).2.map
      (·.withoutProvenance) = .ok g.withoutProvenance := by
  obtain ⟨t, names, g, ht, h, hcomments, himplicit, hwritable⟩ := exists_analysis keywordOnly
    (({} : LanguageOptions).withGlobals repeatedEntries) {}
    (fun t names g => (∀ c ∈ t.comments, c.isDirective = false) ∧
      g.implicit.table.keys = [names.handle "a"] ∧
      ((g.globalVariable? (names.handle "b")).bind g.getVariable?).map (·.writable) =
        some (some true)) (by decide +kernel)
  have hdirective : globalDirective repeatedEntries = "global b:false, a:off, b:writeable" := by
    decide
  have hne : repeatedEntries ≠ [] := List.cons_ne_nil _ _
  obtain ⟨hnames, hgraph⟩ :=
    analyze_globalDirective (o := {}) {} hne hcomments rfl rfl {} 0 {}
  rw [hdirective, h] at hnames hgraph
  exact ⟨t, names, g, ht, h, himplicit, hwritable, hnames, hgraph⟩

end LexicalScope
