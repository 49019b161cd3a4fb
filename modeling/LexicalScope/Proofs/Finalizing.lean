import LexicalScope.Proofs.Configuring

/-!
Finalizing a graph. The references that the closing global scope left are bound to the configured
globals. Taken together with the closing before it, this closes the global scope like any other
scope: every reference that waited there meets the variable of its name in the final table.
-/
namespace LexicalScope.ScopeGraph

variable {ν : Type} [DecidableEq ν]

def configurePasses (g : ScopeGraph ν) (settings : GlobalSettings ν) : ScopeGraph ν :=
  let g := settings.presets.foldl (applyPreset settings.configured) g
  let g := settings.configured.toList.foldl applyConfigured g
  let g := settings.inlined.toList.foldl applyInlined g
  settings.exported.keys.foldl applyExported g

theorem finalize_eq (g : ScopeGraph ν) (settings : GlobalSettings ν) :
    g.finalize settings = (g.configurePasses settings).resolveThrough.pruneImplicit := rfl

/-- The names that configuration adds, in the order of the passes. -/
def addedNames (settings : GlobalSettings ν) : List ν :=
  ((settings.presets.filter fun x => !settings.configured.contains x.1).map (·.1) ++
    (settings.configured.toList.filter fun x => !x.2.isOff).map (·.1)) ++
    (settings.inlined.toList.filter fun x => !x.2.value.isOff).map (·.1)

omit [DecidableEq ν] in
theorem flatMap_unless {α : Type} (p : α → Bool) (f : α → ν) (l : List α) :
    (l.flatMap fun x => if p x then [] else [f x]) = (l.filter fun x => !p x).map f := by
  induction l with
  | nil => rfl
  | cons x l ih =>
    rw [List.flatMap_cons, ih]
    cases hx : p x <;> simp [hx]

def settingsEffect (settings : GlobalSettings ν) (name : ν) (r : Option GlobalRecord) :
    Option GlobalRecord :=
  let r := settings.presets.foldl (fun r x => presetEffect settings.configured x name r) r
  let r := settings.configured.toList.foldl (fun r x => configuredEffect x name r) r
  let r := settings.inlined.toList.foldl (fun r x => inlinedEffect x name r) r
  settings.exported.keys.foldl (fun r x => exportedEffect x name r) r

/-- The passes add their names in order and change no record but by the settings. -/
theorem configured_configurePasses {g : ScopeGraph ν} (hg : g.WellFormed)
    (hs : ScopeId.global.index < g.scopes.size) (settings : GlobalSettings ν) :
    Configured g (g.configurePasses settings) (addedNames settings) (settingsEffect settings) := by
  have hsize {g g' : ScopeGraph ν} {added effect} (h : Configured g g' added effect)
      (hs : ScopeId.global.index < g.scopes.size) : ScopeId.global.index < g'.scopes.size :=
    (h.frame.positions.lt_size_iff _).2 hs
  have hpresets := Configured.foldl
    (fun _ hg hs => configured_applyPreset hg hs settings.configured) hg hs settings.presets
  have hconfigured := Configured.foldl (fun _ hg hs => configured_applyConfigured hg hs)
    hpresets.wellFormed (hsize hpresets hs) settings.configured.toList
  have hinlined := Configured.foldl (fun _ hg hs => configured_applyInlined hg hs)
    hconfigured.wellFormed (hsize hconfigured (hsize hpresets hs)) settings.inlined.toList
  have hexported := Configured.foldl (fun _ hg hs => configured_applyExported hg hs)
    hinlined.wellFormed (hsize hinlined (hsize hconfigured (hsize hpresets hs)))
    settings.exported.keys
  have hall := ((hpresets.trans hconfigured).trans hinlined).trans hexported
  rw [List.flatMap_eq_nil_iff.2 fun _ _ => rfl, List.append_nil] at hall
  unfold presetAdds configuredAdds inlinedAdds at hall
  rw [flatMap_unless, flatMap_unless, flatMap_unless] at hall
  exact hall

section Through

variable {g : ScopeGraph ν} {t : Tree}

/-- A reference left over is bound to the global of its name, if there is one. -/
theorem settles_settleThrough (hg : g.WellFormed) (hs : (g.getScope? .global).isSome)
    {r : ReferenceId} (hr : (g.getReference? r).isSome) :
    Settles g (settleThrough g r) .global [r] g.nameOffer? := by
  unfold settleThrough
  split
  · next v hv =>
    obtain ⟨reference, href⟩ := Option.isSome_iff_exists.1 hr
    have htable : g.globalVariable? reference.name = some v := by
      rwa [href, Option.bind_some] at hv
    obtain ⟨variable', hvar, -⟩ := hg.inTable htable
    exact .link hr (by simp [hvar]) hv
  · next hnone => exact .stay hg.toRooted hs hnone

/-- The references left over are settled one by one. -/
theorem settles_foldl_settleThrough (hg : g.WellFormed) (hs : (g.getScope? .global).isSome)
    {ids : List ReferenceId} (hids : ∀ r ∈ ids, (g.getReference? r).isSome) :
    Settles g (ids.foldl settleThrough g) .global ids g.nameOffer? := by
  apply Settles.foldl
  intro g' hframe r hr
  have hmeets : g.nameOffer? = g'.nameOffer? := funext fun r => (hframe.nameOffer? r).symm
  rw [hmeets]
  refine settles_settleThrough (hg.links hframe) ?_ ?_
  · rw [hframe.positions.isSome_getScope?]
    exact hs
  · rw [hframe.isSome_getReference?]
    exact hids r hr

def clearedThrough (g : ScopeGraph ν) : ScopeGraph ν :=
  g.modifyScope .global fun s => { s with through := #[] }

omit [DecidableEq ν] in
theorem throughOf_clearedThrough (x : ScopeId) :
    g.clearedThrough.throughOf x = if x = .global then [] else g.throughOf x := by
  rw [clearedThrough, throughOf, listOf, getScope?_modifyScope, throughOf, listOf]
  split <;> cases g.getScope? x <;> rfl

omit [DecidableEq ν] in
theorem pendingOf_clearedThrough (x : ScopeId) : g.clearedThrough.pendingOf x = g.pendingOf x :=
  listOf_modifyScope (by exact fun _ => rfl) .global x

theorem frame_clearedThrough : Frame [] g g.clearedThrough :=
  .modifyScope (by exact fun _ => rfl) (by exact fun _ => rfl) (by exact fun _ => rfl) _

theorem resolveThrough_eq (g : ScopeGraph ν) :
    g.resolveThrough = (g.throughOf .global).foldl settleThrough g.clearedThrough := by
  rw [resolveThrough, ← Array.foldl_toList, throughOf, listOf, globalScope?]
  cases g.getScope? .global <;> rfl

/-- Binding the references that were left over adds no names. -/
theorem frame_resolveThrough (g : ScopeGraph ν) : Frame [] g g.resolveThrough.pruneImplicit := by
  have hstep (g : ScopeGraph ν) (r : ReferenceId) : Frame [] g (settleThrough g r) := by
    unfold settleThrough
    split
    · exact .link ..
    · exact .modifyScope (by exact fun _ => rfl) (by exact fun _ => rfl) (by exact fun _ => rfl) _
  refine Frame.trans ?_ (frame_implicit _ _)
  rw [resolveThrough_eq]
  exact frame_clearedThrough.trans (.foldl hstep _ _)

/-- The references left over in the global scope meet the configured globals. -/
theorem settles_resolveThrough (hg : g.WellFormed) (hs : ScopeId.global.index < g.scopes.size)
    (hids : ∀ r ∈ g.throughOf .global, (g.getReference? r).isSome) :
    Settles g.clearedThrough g.resolveThrough .global (g.throughOf .global) g.nameOffer? := by
  have hframe := frame_clearedThrough (g := g)
  have hmeets : g.nameOffer? = g.clearedThrough.nameOffer? :=
    funext fun r => (hframe.nameOffer? r).symm
  rw [resolveThrough_eq, hmeets]
  apply settles_foldl_settleThrough (hg.links hframe)
  · rw [hframe.positions.isSome_getScope?]
    exact isSome_getScope?_iff.2 hs
  · intro r hr
    rw [hframe.isSome_getReference?]
    exact hids r hr

end Through

section Resume

variable {g p : ScopeGraph ν} {early meets : ReferenceId → Option VariableId}
  {ids : List ReferenceId} (hearly : ∀ r ∈ ids, ∀ v, early r = some v → meets r = some v)
include hearly

/-- What meets nothing in the end has met nothing early. -/
theorem filter_none_of_early :
    (ids.filter (early · = none)).filter (meets · = none) = ids.filter (meets · = none) := by
  rw [List.filter_filter]
  apply List.filter_congr
  intro r hr
  cases hmeets : meets r with
  | some v => simp
  | none =>
    cases hr' : early r with
    | none => simp
    | some v => simp [hearly r hr v hr'] at hmeets

/-- The references of a variable are all early ones, or none of them is. -/
theorem filter_append_of_early {v : VariableId}
    (hall : ∀ r ∈ ids, ∀ r' ∈ ids, early r' = some v → meets r = some v → early r = some v) :
    ids.filter (early · = some v) ++ (ids.filter (early · = none)).filter (meets · = some v) =
      ids.filter (meets · = some v) := by
  rw [List.filter_filter]
  by_cases hsome : ∃ r' ∈ ids, early r' = some v
  · obtain ⟨r', hr', hv⟩ := hsome
    have hlate : ids.filter (fun r => decide (meets r = some v) && decide (early r = none)) =
        [] := by
      apply List.filter_eq_nil_iff.2
      intro r hr h
      simp only [Bool.and_eq_true, decide_eq_true_eq] at h
      rw [hall r hr r' hr' hv h.1] at h
      cases h.2
    rw [hlate, List.append_nil]
    apply List.filter_congr
    intro r hr
    exact decide_eq_decide.2 ⟨hearly r hr v, hall r hr r' hr' hv⟩
  · have hnone : ids.filter (early · = some v) = [] :=
      List.filter_eq_nil_iff.2 fun r hr h => hsome ⟨r, hr, of_decide_eq_true h⟩
    rw [hnone, List.nil_append]
    apply List.filter_congr
    intro r hr
    cases hr' : early r with
    | none => simp
    | some v' =>
      have hne : v' ≠ v := fun heq => hsome ⟨r, hr, heq ▸ hr'⟩
      simp [hearly r hr v' hr', hne]

end Resume

section Offers

variable {g c p : ScopeGraph ν} {r r' : ReferenceId} {v : VariableId}

theorem nameOffer?_eq_some_iff : g.nameOffer? r = some v ↔
    ∃ reference, g.getReference? r = some reference ∧
      g.globalVariable? reference.name = some v :=
  Option.bind_eq_some_iff

/-- Before configuration, a reference is bound to a global only if the global is bound lexically. -/
theorem lexicalOffer?_eq_some_iff : g.lexicalOffer? r = some v ↔
    ∃ reference, g.getReference? r = some reference ∧
      g.globalVariable? reference.name = some v ∧
      g.isBoundLexically .global reference.name = true := by
  unfold lexicalOffer?
  split
  · next hbound =>
    obtain ⟨reference, href, hname⟩ := (Option.any_eq_true _ _).1 hbound
    rw [nameOffer?_eq_some_iff]
    apply exists_congr
    intro reference'
    apply and_congr_right
    intro href'
    obtain rfl : reference = reference' := Option.some.inj (href.symm.trans href')
    exact (and_iff_left hname).symm
  · next hbound =>
    constructor
    · rintro ⟨⟩
    · rintro ⟨reference, href, -, hname⟩
      refine absurd ?_ hbound
      rw [href, Option.any_some, hname]

variable (hframe : Frame [.global] g p)
  (hgrows : ∀ name v, g.globalVariable? name = some v → p.globalVariable? name = some v)
include hframe hgrows

/-- A global that a reference has is not taken back by configuration. -/
theorem nameOffer?_of_grows (hv : g.nameOffer? r = some v) : p.nameOffer? r = some v := by
  obtain ⟨reference, href, hname⟩ := nameOffer?_eq_some_iff.1 hv
  have hmap := hframe.reference_eq r
  rw [href, Option.map_some, Option.map_eq_some_iff] at hmap
  obtain ⟨reference', href', heq⟩ := hmap
  have hsame : reference'.name = reference.name := (congrArg Reference.name heq :)
  exact nameOffer?_eq_some_iff.2 ⟨reference', href', hgrows _ v (hsame ▸ hname)⟩

/-- All references of a variable have its name. -/
theorem lexicalOffer?_of_grows (hp : p.WellFormed) (hv' : g.lexicalOffer? r' = some v)
    (hv : p.nameOffer? r = some v) : g.lexicalOffer? r = some v := by
  obtain ⟨reference', -, hname', hbound⟩ := lexicalOffer?_eq_some_iff.1 hv'
  obtain ⟨referenceₚ, hrefₚ, hnameₚ⟩ := nameOffer?_eq_some_iff.1 hv
  obtain ⟨reference, href, heq⟩ := hframe.exists_getReference? hrefₚ
  have hsame : reference.name = reference'.name :=
    (congrArg Reference.name heq :).trans
      ((hp.inTable hnameₚ).name_unique (hp.inTable (hgrows _ v hname')))
  refine lexicalOffer?_eq_some_iff.2 ⟨reference, href, ?_, ?_⟩
  · rw [hsame]
    exact hname'
  · rw [hsame]
    exact hbound

end Offers

section Finalize

variable {g : ScopeGraph ν} {t : Tree} (hg : g.Walked t) (h : Settled g t [.global])
  (hs : ScopeId.global.index < g.scopes.size) (settings : GlobalSettings ν)

include hg h hs

/-- Closing the global scope settles all that waits in it, but keeps what configuration may bind. -/
theorem closes_closeGlobal : Closes g (g.closeScope t .global) .global g.lexicalOffer? := by
  obtain ⟨hframe, hlinks⟩ := entered_spec hg
  apply Closes.of_settles hframe hlinks (settles_closeGlobal hg h hs)
  · intro r hr
    exact ((h.pending .global (List.mem_singleton.2 rfl) r).1 hr).1
  · rw [upper?_global hg.toRooted]
    exact Option.some_ne_none _ ∘ Eq.symm

theorem frame_closeGlobal : Frame [] g (g.closeScope t .global) :=
  (entered_spec hg).1.trans (settles_closeGlobal hg h hs).frame

/-- The settings act on the graph of the closed global scope. -/
theorem configured_closeGlobal : Configured (g.closeScope t .global)
    ((g.closeScope t .global).configurePasses settings) (addedNames settings)
    (settingsEffect settings) := by
  have hframe := frame_closeGlobal hg h hs
  exact configured_configurePasses (hg.toWellFormed.links hframe)
    ((hframe.positions.lt_size_iff _).2 hs) settings

/-- Globals that the source declares stay. -/
theorem globalVariable?_configurePasses {name : ν} {v : VariableId}
    (hv : g.globalVariable? name = some v) :
    ((g.closeScope t .global).configurePasses settings).globalVariable? name = some v := by
  apply (configured_closeGlobal hg h hs settings).grows name v
  rw [globalVariable?, (frame_closeGlobal hg h hs).inTable?_eq .global List.not_mem_nil]
  exact hv

theorem closes_configurePasses : Closes g ((g.closeScope t .global).configurePasses settings)
    .global g.lexicalOffer? :=
  (closes_closeGlobal hg h hs).congr (configured_closeGlobal hg h hs settings).links

/-- Configuration waits for exactly the references that met nothing lexical. -/
theorem throughOf_configurePasses :
    ((g.closeScope t .global).configurePasses settings).throughOf .global =
      (g.pendingOf .global).filter (g.lexicalOffer? · = none) := by
  rw [(closes_configurePasses hg h hs settings).throughOf_eq,
    h.through_open .global (List.mem_singleton.2 rfl), if_pos rfl, List.nil_append]

/-- What the closing global scope leaves over meets the configured globals. -/
theorem settles_configurePasses {p : ScopeGraph ν}
    (hp : p = (g.closeScope t .global).configurePasses settings) :
    Settles p.clearedThrough p.resolveThrough .global
      ((g.pendingOf .global).filter (g.lexicalOffer? · = none)) p.nameOffer? := by
  have hconfigured := configured_closeGlobal hg h hs settings
  have hthrough := throughOf_configurePasses hg h hs settings
  rw [← hp] at hconfigured hthrough
  have hframe : Frame [.global] g p :=
    ((frame_closeGlobal hg h hs).mono (List.nil_subset _)).trans hconfigured.frame
  rw [← hthrough]
  refine settles_resolveThrough hconfigured.wellFormed
    ((hframe.positions.lt_size_iff _).2 hs) fun r hr => ?_
  rw [hthrough] at hr
  rw [hframe.isSome_getReference?]
  exact h.isSome_getReference? hg.toWellFormed hs (List.mem_singleton.2 rfl)
    (List.mem_of_mem_filter hr)

/-- The global scope closes with everything that configuration brings in. -/
theorem closes_resolveThrough {p : ScopeGraph ν}
    (hp : p = (g.closeScope t .global).configurePasses settings) :
    Closes g p.resolveThrough .global p.nameOffer? := by
  have hconfigured := configured_closeGlobal hg h hs settings
  have hclosed := closes_configurePasses hg h hs settings
  have hsettles := settles_configurePasses hg h hs settings hp
  have hframe := frame_closeGlobal hg h hs
  rw [← hp] at hconfigured hclosed
  have hframeₚ : Frame [.global] g p := (hframe.mono (List.nil_subset _)).trans hconfigured.frame
  have hgrows (name : ν) (v : VariableId) (hv : g.globalVariable? name = some v) :
      p.globalVariable? name = some v :=
    hp ▸ globalVariable?_configurePasses hg h hs settings hv
  have hearly (r : ReferenceId) (v : VariableId) (hv : g.lexicalOffer? r = some v) :
      p.nameOffer? r = some v := by
    refine nameOffer?_of_grows hframeₚ hgrows (nameOffer?_eq_some_iff.2 ?_)
    obtain ⟨reference, href, hname, -⟩ := lexicalOffer?_eq_some_iff.1 hv
    exact ⟨reference, href, hname⟩
  have hupper : g.upper? .global = none := upper?_global hg.toRooted
  exact {
    resolvedOf_eq := by
      intro r
      rw [hsettles.resolvedOf_eq]
      show (if _ then (p.nameOffer? r).or (p.resolvedOf r) else p.resolvedOf r) = _
      rw [hclosed.resolvedOf_eq]
      by_cases hr : r ∈ g.pendingOf .global
      · cases hv : g.lexicalOffer? r with
        | none => simp [hr, hv]
        | some v => simp [hr, hv, hearly r v hv]
      · simp [hr]
    linksOf_eq := by
      intro v
      rw [hsettles.linksOf_eq]
      show p.linksOf v ++ _ = _
      rw [hclosed.linksOf_eq, List.append_assoc, filter_append_of_early fun r _ => hearly r]
      exact fun r _ r' _ => lexicalOffer?_of_grows hframeₚ hgrows hconfigured.wellFormed
    pendingOf_eq := by
      intro x
      have hnone : p.clearedThrough.upper? .global = none := by
        rw [frame_clearedThrough.positions.upper?, hframeₚ.positions.upper?, hupper]
      rw [hsettles.pendingOf_eq, pendingOf_clearedThrough, hclosed.pendingOf_eq, hnone, hupper]
      simp
    throughOf_eq := by
      intro x
      rw [hsettles.throughOf_eq, throughOf_clearedThrough, hclosed.throughOf_eq,
        filter_none_of_early fun r _ => hearly r]
      by_cases hx : x = .global
      · rw [if_pos hx, if_pos hx, hx, h.through_open .global (List.mem_singleton.2 rfl)]
      · rw [if_neg hx, if_neg hx, if_neg hx, List.append_nil] }

/-- Finalizing leaves no scope open. -/
theorem closing_finalize :
    Closing g ((g.closeScope t .global).finalize settings) t .global [] := by
  have hconfigured := configured_closeGlobal hg h hs settings
  have hcloses := closes_resolveThrough hg h hs settings rfl
  have hframe := (frame_closeGlobal hg h hs).mono (List.nil_subset [.global])
  rw [finalize_eq]
  generalize (g.closeScope t .global).configurePasses settings = p at hconfigured hcloses
  have hframeₚ := frame_resolveThrough p
  have hwf := hconfigured.wellFormed.links hframeₚ
  have hmeets : p.nameOffer? = (p.resolveThrough.pruneImplicit.offer? t · .global) := by
    funext r
    rw [offer?_global hwf, hframeₚ.nameOffer?]
  rw [hmeets] at hcloses
  exact {
    wellFormed := hg.toWellFormed
    wellFormed_closed := hwf
    settled := h
    lt_size := hs
    chain_eq := hg.chain_outermost hs (upper?_global hg.toRooted)
    frame := hframe.trans (hconfigured.frame.trans (hframeₚ.mono (List.nil_subset _)))
    closes := hcloses.congr (sameLinks_implicit _ _) }

/-- The global table lists what the source declares, then what configuration adds. -/
theorem globalNames_finalize : ((g.closeScope t .global).finalize settings).globalNames =
    (addedNames settings).foldl addName (g.closeScope t .global).globalNames := by
  rw [finalize_eq, (frame_resolveThrough _).globalNames,
    (configured_closeGlobal hg h hs settings).globalNames_eq]

/-- Configuration acts on every global by itself. -/
theorem globalRecord?_finalize (name : ν) :
    ((g.closeScope t .global).finalize settings).globalRecord? name =
      settingsEffect settings name ((g.closeScope t .global).globalRecord? name) := by
  rw [finalize_eq, (frame_resolveThrough _).globalRecord?,
    (configured_closeGlobal hg h hs settings).globalRecord?_eq]

end Finalize

end LexicalScope.ScopeGraph
