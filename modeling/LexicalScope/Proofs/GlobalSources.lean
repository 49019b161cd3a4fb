import LexicalScope.Proofs.DirectiveMerging

/-!
Where a global that the source does not declare comes from. Directive comments, configured globals
and enabled environments are each asked for one name, with the last entry of the comments and the
first environment that counts. The settings of a file give the same answers.
-/
namespace LexicalScope

/-- Whether a preset makes a name writable. Its readonly names count before its writable ones. -/
def EnvironmentPreset.writability? (p : EnvironmentPreset) (name : String) : Option Bool :=
  if name ∈ p.readonly then some false
  else if name ∈ p.writable then some true
  else none

namespace LanguageOptions

variable (o : LanguageOptions) (envs : Environments) (name : String)

/-- The configured value of a name, unless it is off. -/
def configuredValue? : Option GlobalValue :=
  (o.globals.get? name).filter (!·.isOff)

/-- What the first known environment with a name says of it. A configured name, be it off, is not
looked up in environments. -/
def environmentValue? : Option Bool :=
  if o.globals.contains name then none
  else o.env.findSome? fun env => (envs.get? env).bind (·.writability? name)

def environmentNames : List String :=
  o.env.flatMap fun env => (envs.get? env).elim [] fun p => p.readonly ++ p.writable

end LanguageOptions

namespace Comment

variable (comments : Array Comment) (name : String)

def lastValue? : Option GlobalValue :=
  ((comments.toList.flatMap globalEntries).reverse.find? (·.1 = name)).map (·.2)

def listing : List CommentId :=
  (comments.toList.zipIdx.filter fun c => c.1.globalEntries.any (·.1 = name)).map (⟨·.2⟩)

/-- The last value that comments give to a name, unless it is off, with all comments that list the
name. -/
def inlineGlobal? : Option InlineGlobal :=
  ((lastValue? comments name).filter (!·.isOff)).map (⟨·, listing comments name⟩)

def listedNames : List String :=
  ((comments.toList.flatMap globalEntries).map (·.1)).eraseDups

def isExported : Bool :=
  comments.any fun c => name ∈ c.exportedNames

end Comment

/-- The names that configuration can add: those of the environments, then the configured ones, then
those of the comments. -/
def addedGlobals (o : LanguageOptions) (envs : Environments) (comments : Array Comment) :
    List String :=
  (o.environmentNames envs).filter (!o.globals.contains ·) ++
    o.globals.keys.filter (fun name => (o.configuredValue? name).isSome) ++
    (Comment.listedNames comments).filter fun name => (Comment.inlineGlobal? comments name).isSome

section Presets

variable (name : String)

/-- In a list of names with one value, a name is found if it is listed. -/
theorem find?_map_pair (names : List String) (isWritable : Bool) :
    (names.map (·, isWritable)).find? (·.1 = name) =
      if name ∈ names then some (name, isWritable) else none := by
  induction names with
  | nil => rfl
  | cons name' names ih =>
    rw [List.map_cons, List.find?_cons, ih]
    by_cases h : name' = name
    · simp [h]
    · simp [h, Ne.symm h]

/-- The enumeration of a preset has its readonly names first. -/
theorem EnvironmentPreset.find?_toList (p : EnvironmentPreset) :
    (p.toList.find? (·.1 = name)).map (·.2) = p.writability? name := by
  rw [toList, List.find?_append, find?_map_pair, find?_map_pair, writability?]
  split
  · rfl
  · split <;> rfl

theorem EnvironmentPreset.map_fst_toList (p : EnvironmentPreset) :
    p.toList.map (·.1) = p.readonly ++ p.writable := by
  have hfst (names : List String) (isWritable : Bool) :
      (names.map fun name => (name, isWritable)).map (·.1) = names := by
    rw [List.map_map]
    exact List.map_id _
  rw [toList, List.map_append, hfst, hfst]

variable (o : LanguageOptions) (envs : Environments)

/-- An unknown environment adds nothing to the list of all presets. -/
theorem flatMap_toList_filterMap :
    (o.env.filterMap envs.get?).flatMap EnvironmentPreset.toList =
      o.env.flatMap fun env => (envs.get? env).elim [] EnvironmentPreset.toList := by
  rw [List.filterMap_eq_flatMap_toList, List.flatMap_assoc]
  congr 1
  funext env
  cases envs.get? env with
  | none => rfl
  | some p => exact List.append_nil _

/-- In the list of all presets a name first comes from the first environment that has it. -/
theorem find?_flatMap_toList :
    (((o.env.filterMap envs.get?).flatMap EnvironmentPreset.toList).find? (·.1 = name)).map (·.2) =
      o.env.findSome? fun env => (envs.get? env).bind (·.writability? name) := by
  rw [flatMap_toList_filterMap, List.find?_flatMap, List.map_findSome?]
  congr 1
  funext env
  rw [Function.comp_apply]
  cases envs.get? env with
  | none => rfl
  | some p => exact p.find?_toList name

theorem map_fst_flatMap_toList :
    ((o.env.filterMap envs.get?).flatMap EnvironmentPreset.toList).map (·.1) =
      o.environmentNames envs := by
  rw [flatMap_toList_filterMap, List.map_flatMap, LanguageOptions.environmentNames]
  congr 1
  funext env
  cases envs.get? env with
  | none => rfl
  | some p => exact p.map_fst_toList

end Presets

section Comments

variable (comments : Array Comment) (name : String)

/-- The last entry is the first one from the end. -/
theorem OrderedMap.isLast_iff_find?_reverse {α : Type} {entries : List (String × α)} {v : α} :
    IsLast entries name v ↔
      (entries.reverse.find? (·.1 = name)).map (·.2) = some v := by
  induction entries using List.reverseRecOn with
  | nil => simp [IsLast]
  | append_singleton entries e ih =>
    rw [isLast_concat, ih, List.reverse_concat, List.find?_cons]
    by_cases h : e.1 = name
    · simp [h]
    · simp [h, Ne.symm h]

/-- The comments that list a name, in their order. -/
theorem Comment.listedBy_listing (value : GlobalValue) :
    (⟨value, listing comments name⟩ : InlineGlobal).ListedBy fun id =>
      ∃ c, comments[id.index]? = some c ∧ ∃ value, (name, value) ∈ c.globalEntries := by
  refine ⟨?_, fun id => ?_⟩
  · exact List.pairwise_map.2 ((pairwise_zipIdx comments.toList).filter _)
  · have hlisted (c : Comment) : (c.globalEntries.any (·.1 = name)) = true ↔
        ∃ value, (name, value) ∈ c.globalEntries := by
      simp
    simp only [listing, List.mem_map, List.mem_filter, hlisted, List.mem_zipIdx_iff_getElem?,
      Array.getElem?_toList, Prod.exists]
    constructor
    · rintro ⟨c, i, ⟨hc, hvalue⟩, rfl⟩
      exact ⟨c, hc, hvalue⟩
    · rintro ⟨c, hc, hvalue⟩
      exact ⟨c, id.index, ⟨hc, hvalue⟩, rfl⟩

/-- The merged comments have the last value of a name and every comment that lists it. -/
theorem DirectiveTable.get?_globals_ofComments_eq :
    (ofComments comments).globals.get? name =
      (Comment.lastValue? comments name).map (⟨·, Comment.listing comments name⟩) := by
  apply Option.ext
  intro g
  rw [get?_globals_ofComments, OrderedMap.isLast_iff_find?_reverse, ← Comment.lastValue?,
    Option.map_eq_some_iff]
  have hlisting := Comment.listedBy_listing comments name
  constructor
  · rintro ⟨hvalue, hlisted⟩
    exact ⟨g.value, hvalue, congrArg (InlineGlobal.mk g.value)
      ((hlisting g.value).comments_eq hlisted)⟩
  · rintro ⟨value, hvalue, rfl⟩
    exact ⟨hvalue, hlisting value⟩

/-- A name is exported if some comment exports it. -/
theorem DirectiveTable.contains_exported_ofComments :
    (ofComments comments).exported.contains name = Comment.isExported comments name := by
  rw [Bool.eq_iff_iff, ← OrderedMap.mem_keys_iff, keys_exported_ofComments, List.mem_eraseDups,
    Comment.isExported, Array.any_eq_true']
  simp

end Comments

/-- Keys can be chosen by their values. -/
theorem OrderedMap.map_fst_filter_toList {κ α : Type} [DecidableEq κ] (m : OrderedMap κ α)
    (p : α → Bool) :
    (m.toList.filter fun e => p e.2).map (·.1) =
      m.keys.filter fun k => ((m.get? k).filter p).isSome := by
  rw [← m.map_fst_toList, List.filter_map]
  congr 1
  refine List.filter_congr fun e he => ?_
  rw [Function.comp_apply, (m.mem_toList_iff e.1 e.2).1 he, Option.isSome_filter, Option.any_some]

namespace GlobalSettings

section Lookups

variable {ν : Type} [DecidableEq ν] (settings : GlobalSettings ν) (name : ν)

def inline? : Option InlineGlobal :=
  (settings.inlined.get? name).filter (!·.value.isOff)

def value? : Option GlobalValue :=
  (settings.configured.get? name).filter (!·.isOff)

def preset? : Option Bool :=
  if settings.configured.contains name then none
  else (settings.presets.find? (·.1 = name)).map (·.2)

end Lookups

variable (o : LanguageOptions) (envs : Environments) (comments : Array Comment) (name : String)

/-- A file has the directive entry that its comments give. -/
theorem inline?_ofFile :
    (ofFile o envs comments).inline? name = Comment.inlineGlobal? comments name := by
  show ((DirectiveTable.ofComments comments).globals.get? name).filter _ = _
  rw [DirectiveTable.get?_globals_ofComments_eq, Option.filter_map, Comment.inlineGlobal?]
  rfl

theorem value?_ofFile : (ofFile o envs comments).value? name = o.configuredValue? name :=
  rfl

/-- A file has the environment value that its options give. -/
theorem preset?_ofFile : (ofFile o envs comments).preset? name = o.environmentValue? envs name := by
  rw [preset?, LanguageOptions.environmentValue?, ← find?_flatMap_toList]
  rfl

theorem contains_exported_ofFile :
    (ofFile o envs comments).exported.contains name = Comment.isExported comments name :=
  DirectiveTable.contains_exported_ofComments comments name

/-- The passes over the settings of a file add the names of its sources, in their order. -/
theorem addedNames_ofFile :
    ScopeGraph.addedNames (ofFile o envs comments) = addedGlobals o envs comments := by
  have hpresets : ((ofFile o envs comments).presets.filter fun x =>
      !(ofFile o envs comments).configured.contains x.1).map (·.1) =
        (o.environmentNames envs).filter (!o.globals.contains ·) := by
    rw [← map_fst_flatMap_toList, List.filter_map]
    rfl
  have hinlined : ((ofFile o envs comments).inlined.toList.filter fun x => !x.2.value.isOff).map
      (·.1) = (Comment.listedNames comments).filter fun name =>
        (Comment.inlineGlobal? comments name).isSome := by
    rw [OrderedMap.map_fst_filter_toList _ fun g : InlineGlobal => !g.value.isOff]
    have hkeys : (ofFile o envs comments).inlined.keys = Comment.listedNames comments :=
      DirectiveTable.keys_globals_ofComments comments
    rw [hkeys]
    refine List.filter_congr fun name _ => ?_
    rw [← inline?_ofFile o envs, inline?]
  have hconfigured : ((ofFile o envs comments).configured.toList.filter fun x =>
      !x.2.isOff).map (·.1) =
        o.globals.keys.filter fun name => (o.configuredValue? name).isSome :=
    OrderedMap.map_fst_filter_toList _ fun value : GlobalValue => !value.isOff
  rw [ScopeGraph.addedNames, hpresets, hconfigured, hinlined, addedGlobals]

end GlobalSettings

end LexicalScope
