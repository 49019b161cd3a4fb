import LexicalScope.Proofs.Analyzed
import LexicalScope.Proofs.Stable
import Mathlib.Data.List.Induction

/-!
Implicit globals. The closing global scope enters one variable for each undeclared name that
sloppy code assigns to, with a definition for each assignment. No later operation touches these
variables, since they stand in no table. Pruning drops those whose names the configuration brings
in, so what remains is decided by the references that are left over in the end.
-/
namespace LexicalScope

variable {ν : Type}

/-- The definition that an assignment to an undeclared name makes. -/
def Definition.ofSite (site : ImplicitSite) : Definition where
  kind := .implicitGlobal
  name := site.pattern
  node := site.node

/-- A global that sloppy code creates by assignments, with nothing else known of it. -/
def Variable.ofSites (id : VariableId) (name : ν) (sites : List ImplicitSite) : Variable ν where
  id
  name
  scope := .global
  identifiers := (sites.map (·.pattern)).toArray
  definitions := (sites.map Definition.ofSite).toArray

/-- One more site is one more definition. -/
theorem Variable.define_ofSites (id : VariableId) (name : ν) (sites : List ImplicitSite)
    (site : ImplicitSite) :
    (Variable.ofSites id name sites).define (.ofSite site) =
      Variable.ofSites id name (sites ++ [site]) := by
  simp [Variable.define, Variable.ofSites, Definition.ofSite]

variable [DecidableEq ν]

def sitesAt (entries : List (ν × ImplicitSite)) (name : ν) : List ImplicitSite :=
  (entries.filter (·.1 = name)).map (·.2)

theorem sitesAt_concat (entries : List (ν × ImplicitSite)) (entry : ν × ImplicitSite) (name : ν) :
    sitesAt (entries ++ [entry]) name =
      sitesAt entries name ++ if entry.1 = name then [entry.2] else [] := by
  by_cases hname : entry.1 = name <;> simp [sitesAt, hname]

theorem sitesAt_filter {entries : List (ν × ImplicitSite)} {p : ν → Bool} {name : ν}
    (hname : p name) : sitesAt (entries.filter (p ·.1)) name = sitesAt entries name := by
  rw [sitesAt, List.filter_filter, sitesAt]
  congr 1
  apply List.filter_congr
  intro entry _
  by_cases heq : entry.1 = name <;> simp [heq, hname]

namespace ScopeGraph

theorem eraseDups_concat (names : List ν) (name : ν) :
    (names ++ [name]).eraseDups = addName names.eraseDups name := by
  rw [List.eraseDups_append, addName]
  by_cases hname : name ∈ names <;>
    simp [List.removeAll, hname, List.mem_eraseDups, List.eraseDups_cons]

/-- Names can be chosen before or after their repetitions are dropped. -/
theorem eraseDups_filter (names : List ν) (p : ν → Bool) :
    (names.filter p).eraseDups = names.eraseDups.filter p := by
  induction names using List.reverseRecOn with
  | nil => rfl
  | append_singleton names name ih =>
    rw [eraseDups_concat, List.filter_append]
    by_cases hname : p name
    · rw [List.filter_singleton, hname, cond_true, eraseDups_concat, ih, addName, addName]
      by_cases hmem : name ∈ names.eraseDups <;> simp [hmem, hname]
    · rw [Bool.not_eq_true] at hname
      rw [List.filter_singleton, hname, cond_false, List.append_nil, ih, addName]
      split <;> simp [hname]

omit [DecidableEq ν] in
/-- The name that a reference would create as a global, and where. -/
def siteOf? (g : ScopeGraph ν) (r : ReferenceId) : Option (ν × ImplicitSite) :=
  (g.getReference? r).bind fun reference => reference.site.map (reference.name, ·)

/-- The implicit globals of a graph come from the listed sites. -/
structure HoldsSites (g : ScopeGraph ν) (entries : List (ν × ImplicitSite)) : Prop where
  keys_eq : g.implicit.table.keys = (entries.map (·.1)).eraseDups
  variable_eq : ∀ {name v}, g.implicit.table.get? name = some v →
    g.getVariable? v = some (.ofSites v name (sitesAt entries name))

section Enter

variable {g : ScopeGraph ν} {entries : List (ν × ImplicitSite)}

/-- An implicit global is listed where its name first comes up. -/
theorem keys_bindImplicit (g : ScopeGraph ν) (name : ν) :
    (g.bindImplicit name).1.implicit.table.keys = addName g.implicit.table.keys name := by
  unfold bindImplicit
  split
  · next v hv =>
    have hmem : name ∈ g.implicit.table.keys := (OrderedMap.mem_keys_iff _ name).2 (by
      rw [OrderedMap.contains, hv]
      rfl)
    exact (addName_of_mem hmem).symm
  · exact OrderedMap.keys_insert ..

theorem HoldsSites.mem_keys_iff (h : g.HoldsSites entries) (name : ν) :
    (g.implicit.table.get? name).isSome ↔ name ∈ entries.map (·.1) := by
  rw [← List.mem_eraseDups, ← h.keys_eq, OrderedMap.mem_keys_iff, OrderedMap.contains]

/-- The variable that an assignment finds or adds. -/
theorem HoldsSites.variable_bindImplicit (h : g.HoldsSites entries) (name : ν) :
    (g.bindImplicit name).1.getVariable? (g.bindImplicit name).2 =
      some (.ofSites (g.bindImplicit name).2 name (sitesAt entries name)) := by
  cases hname : g.implicit.table.get? name with
  | some v =>
    have hbind : g.bindImplicit name = (g, v) := by simp [bindImplicit, hname]
    rw [hbind]
    exact h.variable_eq hname
  | none =>
    have hsites : sitesAt entries name = [] := by
      rw [sitesAt, List.map_eq_nil_iff, List.filter_eq_nil_iff]
      intro entry hentry heq
      have hsome := (h.mem_keys_iff name).2 (List.mem_map.2 ⟨entry, hentry, of_decide_eq_true heq⟩)
      rw [hname] at hsome
      cases hsome
    rw [bindImplicit_snd, hname, Option.getD_none, getVariable?_bindImplicit, if_pos ⟨rfl, hname⟩,
      hsites]
    rfl

/-- Entering a site adds it to the sites of its name. -/
theorem HoldsSites.declareImplicit (h : g.HoldsSites entries) (entry : ν × ImplicitSite) :
    (g.declareImplicit entry.1 (.ofSite entry.2)).HoldsSites (entries ++ [entry]) where
  keys_eq := by
    rw [implicit_declareImplicit, keys_bindImplicit, h.keys_eq, List.map_append, List.map_singleton,
      eraseDups_concat]
  variable_eq := by
    intro name v hv
    have hbound := h.variable_bindImplicit entry.1
    rw [implicit_declareImplicit, get?_bindImplicit] at hv
    rw [getVariable?_declareImplicit, sitesAt_concat]
    by_cases hname : name = entry.1
    · subst hname
      rw [if_pos rfl] at hv
      obtain rfl := Option.some.inj hv
      rw [if_pos rfl, if_pos rfl, hbound, Option.map_some, Variable.define_ofSites]
    · rw [if_neg hname] at hv
      have hvar := h.variable_eq hv
      have hold : (g.bindImplicit entry.1).1.getVariable? v = g.getVariable? v := by
        rw [getVariable?_bindImplicit, if_neg]
        rintro ⟨rfl, -⟩
        rw [getVariable?_nextVariable] at hvar
        cases hvar
      have hne : v ≠ (g.bindImplicit entry.1).2 := by
        rintro rfl
        rw [hold, hvar] at hbound
        exact hname (congrArg Variable.name (Option.some.inj hbound))
      rw [if_neg hne, if_neg (Ne.symm hname), List.append_nil, hold, hvar]

/-- A site is entered unless a table has its name. -/
theorem declareSite_eq (s : ScopeId) (g : ScopeGraph ν) (r : ReferenceId) :
    declareSite s g r = (g.siteOf? r).elim g fun entry =>
      if (g.inTable? s entry.1).isSome then g
      else g.declareImplicit entry.1 (.ofSite entry.2) := by
  unfold declareSite siteOf?
  cases g.getReference? r with
  | none => rfl
  | some reference =>
    obtain ⟨id, identifier, name, origin, resolved, access, writeExpr, partialWrite, init, tainted,
      site⟩ := reference
    cases site <;> rfl

/-- The sites of all references are entered in their order. -/
theorem HoldsSites.foldl_declareSite (h : g.HoldsSites entries) (s : ScopeId)
    (ids : List ReferenceId) :
    (ids.foldl (declareSite s) g).HoldsSites
      (entries ++ (ids.filterMap g.siteOf?).filter (fun e => (g.inTable? s e.1).isNone)) := by
  induction ids generalizing g entries with
  | nil =>
    rw [List.filterMap_nil, List.filter_nil, List.append_nil]
    exact h
  | cons r ids ih =>
    rw [List.foldl_cons, declareSite_eq]
    cases hsite : g.siteOf? r with
    | none =>
      rw [List.filterMap_cons_none hsite]
      exact ih h
    | some entry =>
      rw [List.filterMap_cons_some hsite, Option.elim_some]
      cases htable : g.inTable? s entry.1 with
      | some v =>
        rw [List.filter_cons_of_neg (by simp [htable])]
        exact ih h
      | none =>
        have hreference := getReference?_declareImplicit g entry.1 (.ofSite entry.2)
        have hsites : (g.declareImplicit entry.1 (.ofSite entry.2)).siteOf? = g.siteOf? := by
          funext r
          rw [siteOf?, hreference, siteOf?]
        have hnext := ih (h.declareImplicit entry)
        simp only [hsites, inTable?_declareImplicit, List.append_assoc, List.singleton_append]
          at hnext
        rw [List.filter_cons_of_pos (by simp [htable])]
        exact hnext

end Enter

section Apart

variable {g g' g'' : ScopeGraph ν} {s : ScopeId} {v : VariableId}

/-- The variable exists and stands in no table. -/
def Apart (g : ScopeGraph ν) (v : VariableId) : Prop :=
  (g.getVariable? v).isSome ∧ ∀ s name, g.inTable? s name ≠ some v

/-- Going from `g` to `g'`, the implicit globals stay as they are, and so do all variables that
stand in no table. -/
structure KeepsApart (g g' : ScopeGraph ν) : Prop where
  implicit_eq : g'.implicit = g.implicit
  getVariable?_eq : ∀ {v}, g.Apart v → g'.getVariable? v = g.getVariable? v
  apart : ∀ {v}, g.Apart v → g'.Apart v

namespace KeepsApart

theorem refl (g : ScopeGraph ν) : g.KeepsApart g :=
  ⟨rfl, fun _ => rfl, fun h => h⟩

theorem trans (h : g.KeepsApart g') (h' : g'.KeepsApart g'') : g.KeepsApart g'' where
  implicit_eq := h'.implicit_eq.trans h.implicit_eq
  getVariable?_eq hv := (h'.getVariable?_eq (h.apart hv)).trans (h.getVariable?_eq hv)
  apart hv := h'.apart (h.apart hv)

theorem foldl {α : Type} {step : ScopeGraph ν → α → ScopeGraph ν}
    (hstep : ∀ g x, KeepsApart g (step g x)) (l : List α) (g : ScopeGraph ν) :
    KeepsApart g (l.foldl step g) :=
  foldl_induction (fun x h => h.trans (hstep _ x)) l (refl g)

theorem ite_self_left {p : Prop} [Decidable p] (h : g.KeepsApart g') :
    g.KeepsApart (if p then g else g') := by
  split
  · exact refl g
  · exact h

theorem modifyScope {f : Scope ν → Scope ν} (hf : ∀ s, (f s).table = s.table) (s : ScopeId) :
    g.KeepsApart (g.modifyScope s f) where
  implicit_eq := rfl
  getVariable?_eq _ := rfl
  apart {v} hv := by
    refine ⟨hv.1, fun x name => ?_⟩
    rw [inTable?_modifyScope g hf]
    exact hv.2 x name

theorem modifyVariable {name : ν} (hv : g.inTable? s name = some v)
    (f : Variable ν → Variable ν) : g.KeepsApart (g.modifyVariable v f) := by
  have hsame {w : VariableId} (hw : g.Apart w) :
      (g.modifyVariable v f).getVariable? w = g.getVariable? w := by
    rw [getVariable?_modifyVariable, if_neg]
    rintro rfl
    exact hw.2 s name hv
  exact ⟨rfl, hsame, fun hw => ⟨by rw [hsame hw]; exact hw.1, hw.2⟩⟩

theorem link {name : ν} (hv : g.inTable? s name = some v) (r : ReferenceId) :
    g.KeepsApart (g.link r v) := by
  show g.KeepsApart ((g.modifyReference r _).modifyVariable v _)
  have hreference (f : Reference ν → Reference ν) : g.KeepsApart (g.modifyReference r f) :=
    ⟨rfl, fun _ => rfl, fun h => h⟩
  exact (hreference _).trans (modifyVariable (by exact hv) _)

theorem delegate (g : ScopeGraph ν) (s : ScopeId) (r : ReferenceId) :
    g.KeepsApart (g.delegate s r) := by
  have hhanded : g.KeepsApart (((g.getScope? s).bind (·.upper)).elim g
      (g.modifyScope · fun u => { u with pending := u.pending.push r })) := by
    cases (g.getScope? s).bind (·.upper) with
    | none => exact refl g
    | some u => exact modifyScope (by exact fun _ => rfl) u
  exact hhanded.trans (modifyScope (by exact fun _ => rfl) s)

/-- Settling a reference links variables of tables only. -/
theorem settleGlobal (t : Tree) (s : ScopeId) (g : ScopeGraph ν) (r : ReferenceId) :
    g.KeepsApart (ScopeGraph.settleGlobal t s g r) := by
  unfold ScopeGraph.settleGlobal settle
  split
  · split
    · next v hv =>
      obtain ⟨reference, -, hname, -⟩ := inTable?_of_resolution? hv
      exact link hname r
    · exact delegate g s r
  · exact modifyScope (by exact fun _ => rfl) s

theorem settleThrough (g : ScopeGraph ν) (r : ReferenceId) :
    g.KeepsApart (ScopeGraph.settleThrough g r) := by
  unfold ScopeGraph.settleThrough
  split
  · next v hv =>
    obtain ⟨reference, -, hname⟩ := Option.bind_eq_some_iff.1 hv
    exact link hname r
  · exact modifyScope (by exact fun _ => rfl) .global

theorem resolveThrough (g : ScopeGraph ν) : g.KeepsApart g.resolveThrough := by
  rw [resolveThrough_eq]
  exact (modifyScope (by exact fun _ => rfl) .global).trans (foldl settleThrough _ _)

/-- The variable of a name in a table, found or added, is another one. -/
theorem ne_bind_of_apart (hv : g.Apart v) (s : ScopeId) (name : ν) : v ≠ (g.bind s name).2 := by
  rw [bind_snd]
  cases hname : g.inTable? s name with
  | some w =>
    rintro rfl
    exact hv.2 s name hname
  | none =>
    rintro rfl
    have hsome := hv.1
    rw [Option.getD_none, getVariable?_nextVariable] at hsome
    cases hsome

theorem revise (g : ScopeGraph ν) (s : ScopeId) (name : ν) (f : Variable ν → Variable ν) :
    g.KeepsApart (g.revise s name f) := by
  have hrevises := revises_revise g s name f
  have hsame {w : VariableId} (hw : g.Apart w) :
      (g.revise s name f).getVariable? w = g.getVariable? w := by
    rw [hrevises.getVariable?_eq, if_neg (ne_bind_of_apart hw s name), getVariable?_bind, if_neg]
    rintro ⟨rfl, -⟩
    have hsome := hw.1
    rw [getVariable?_nextVariable] at hsome
    cases hsome
  refine ⟨implicit_bind g s name, hsame, fun hw => ⟨by rw [hsame hw]; exact hw.1, ?_⟩⟩
  intro x m hm
  rcases inTable?_of_bind hm with heq | hin
  · exact ne_bind_of_apart hw s name heq
  · exact hw.2 x m hin

/-- Configuration makes and changes variables of tables only. -/
theorem configurePasses (g : ScopeGraph ν) (settings : GlobalSettings ν) :
    g.KeepsApart (g.configurePasses settings) := by
  have hconfigure (g : ScopeGraph ν) (name : ν) (f : Variable ν → Variable ν) :
      g.KeepsApart (g.configure name f) := (revise g .global name f).ite_self_left
  have hpreset (g : ScopeGraph ν) (preset : ν × Bool) :
      g.KeepsApart (applyPreset settings.configured g preset) :=
    (revise g .global preset.1 _).ite_self_left
  have hconfigured (g : ScopeGraph ν) (entry : ν × GlobalValue) :
      g.KeepsApart (applyConfigured g entry) := (hconfigure g entry.1 _).ite_self_left
  have hinlined (g : ScopeGraph ν) (entry : ν × InlineGlobal) :
      g.KeepsApart (applyInlined g entry) := (hconfigure g entry.1 _).ite_self_left
  have hexported (g : ScopeGraph ν) (name : ν) : g.KeepsApart (applyExported g name) := by
    unfold applyExported
    split
    · next v hv => exact modifyVariable hv _
    · exact refl g
  refine (foldl hpreset settings.presets g).trans ?_
  refine (foldl hconfigured settings.configured.toList _).trans ?_
  refine (foldl hinlined settings.inlined.toList _).trans ?_
  exact foldl hexported settings.exported.keys _

end KeepsApart

/-- Implicit globals whose names are not declared stand in no table. -/
theorem HoldsSites.apart {entries : List (ν × ImplicitSite)} (h : g.HoldsSites entries)
    (hg : g.WellFormed) (hentries : ∀ e ∈ entries, g.globalVariable? e.1 = none) {name : ν}
    (hv : g.implicit.table.get? name = some v) : g.Apart v := by
  have hvar := h.variable_eq hv
  refine ⟨by rw [hvar]; rfl, fun s m hm => ?_⟩
  obtain ⟨variable', hvar', hscope, hname⟩ := hg.inTable hm
  rw [hvar] at hvar'
  obtain rfl := Option.some.inj hvar'
  obtain rfl : ScopeId.global = s := hscope
  obtain rfl : name = m := hname
  obtain ⟨entry, hentry, rfl⟩ := List.mem_map.1 ((h.mem_keys_iff name).1 (by rw [hv]; rfl))
  have hnone := hentries entry hentry
  rw [globalVariable?, hm] at hnone
  cases hnone

/-- Implicit globals stand in no table, so what changes tables and their variables leaves them. -/
theorem HoldsSites.keep {entries : List (ν × ImplicitSite)} (h : g.HoldsSites entries)
    (hkeeps : g.KeepsApart g')
    (hapart : ∀ {name v}, g.implicit.table.get? name = some v → g.Apart v) :
    g'.HoldsSites entries where
  keys_eq := by rw [hkeeps.implicit_eq, h.keys_eq]
  variable_eq := by
    intro name v hv
    rw [hkeeps.implicit_eq] at hv
    rw [hkeeps.getVariable?_eq (hapart hv), h.variable_eq hv]

theorem get?_pruneImplicit {name : ν} : g.pruneImplicit.implicit.table.get? name = some v ↔
    g.implicit.table.get? name = some v ∧ g.globalVariable? name = none := by
  rw [pruneImplicit, OrderedMap.get?_retain, Option.filter_eq_some_iff, Option.isNone_iff_eq_none]

/-- Pruning drops the sites of names that the global table has. -/
theorem HoldsSites.pruneImplicit {entries : List (ν × ImplicitSite)} (h : g.HoldsSites entries) :
    g.pruneImplicit.HoldsSites (entries.filter fun e => (g.globalVariable? e.1).isNone) where
  keys_eq := by
    have hkeys : g.pruneImplicit.implicit.table.keys =
        g.implicit.table.keys.filter fun name => (g.globalVariable? name).isNone := by
      rw [ScopeGraph.pruneImplicit, OrderedMap.keys_retain]
      apply List.filter_congr
      intro name hname
      rw [OrderedMap.mem_keys_iff, OrderedMap.contains] at hname
      obtain ⟨v, hv⟩ := Option.isSome_iff_exists.1 hname
      rw [hv, Option.any_some]
    rw [hkeys, h.keys_eq, ← eraseDups_filter, List.filter_map]
    rfl
  variable_eq := by
    intro name v hv
    obtain ⟨hv, hnone⟩ := get?_pruneImplicit.1 hv
    rw [sitesAt_filter (p := fun name => (g.globalVariable? name).isNone) (by simp [hnone])]
    exact h.variable_eq hv

end Apart

section Finalize

variable {g : ScopeGraph ν} {t : Tree}

theorem Frame.siteOf?_eq {touched : List ScopeId} {g' : ScopeGraph ν} (h : Frame touched g g')
    (r : ReferenceId) : g'.siteOf? r = g.siteOf? r := by
  have hsite := congrArg (Option.bind · fun reference =>
    reference.site.map (reference.name, ·)) (h.reference_eq r)
  simp only [Option.bind_map] at hsite
  exact hsite

/-- The sites at which undeclared names are assigned, when the global scope closes. -/
def closingSites (g : ScopeGraph ν) : List (ν × ImplicitSite) :=
  ((g.pendingOf .global).filterMap g.siteOf?).filter fun e => (g.globalVariable? e.1).isNone

/-- The closing global scope has entered the sites of all undeclared names. -/
theorem holdsSites_entered (hg : g.Walked t) : g.entered.HoldsSites g.closingSites := by
  have hempty : Frame [] g (g.emptied .global) := frame_emptied
  have hstart : (g.emptied .global).HoldsSites [] := by
    have himplicit : (g.emptied .global).implicit = {} := hg.implicit
    constructor
    · rw [himplicit]
      rfl
    · intro name v hv
      rw [himplicit] at hv
      cases hv
  have hall := hstart.foldl_declareSite .global (g.pendingOf .global)
  have htable (name : ν) : (g.emptied .global).inTable? .global name = g.globalVariable? name :=
    hempty.inTable?_eq .global List.not_mem_nil name
  have hsites : (g.emptied .global).siteOf? = g.siteOf? := funext hempty.siteOf?_eq
  simp only [htable, hsites, List.nil_append] at hall
  exact ⟨hall.keys_eq, hall.variable_eq⟩

def throughSites (g : ScopeGraph ν) : List (ν × ImplicitSite) :=
  (g.throughOf .global).filterMap g.siteOf?

/-- A site has the name of its reference. -/
theorem nameOffer?_of_siteOf? {r : ReferenceId} {entry : ν × ImplicitSite}
    (hsite : g.siteOf? r = some entry) : g.nameOffer? r = g.globalVariable? entry.1 := by
  obtain ⟨reference, href, hentry⟩ := Option.bind_eq_some_iff.1 hsite
  obtain ⟨site, -, rfl⟩ := Option.map_eq_some_iff.1 hentry
  rw [nameOffer?, href, Option.bind_some]

/-- The sites that are left over are those whose names are still undeclared in the end. -/
theorem throughSites_eq {p : ScopeGraph ν} (hsites : ∀ r, p.siteOf? r = g.siteOf? r)
    (hgrows : ∀ name v, g.globalVariable? name = some v → p.globalVariable? name = some v)
    (hthrough : p.throughOf .global = (g.pendingOf .global).filter (p.nameOffer? · = none)) :
    p.throughSites = g.closingSites.filter fun e => (p.globalVariable? e.1).isNone := by
  have hearly (entry : ν × ImplicitSite) : ((p.globalVariable? entry.1).isNone &&
      (g.globalVariable? entry.1).isNone) = (p.globalVariable? entry.1).isNone := by
    cases hv : g.globalVariable? entry.1 with
    | none => simp
    | some v => simp [hgrows entry.1 v hv]
  rw [throughSites, hthrough, closingSites, List.filter_filter, funext hearly, ← funext hsites,
    List.filterMap_filter, List.filter_filterMap]
  apply List.filterMap_congr
  intro r _
  cases hsite : p.siteOf? r with
  | none => simp
  | some entry =>
    rw [nameOffer?_of_siteOf? hsite]
    cases hv : p.globalVariable? entry.1 <;> simp [Option.filter, hv]

/-- The references left to the configured globals are those that the pruned bucket keeps. -/
theorem toList_left_pruneImplicit {p : ScopeGraph ν}
    (hleft : p.implicit.left = (g.pendingOf .global).toArray)
    (hreferences : ∀ r ∈ g.pendingOf .global, (p.getReference? r).isSome) :
    p.pruneImplicit.implicit.left.toList =
      (g.pendingOf .global).filter (p.nameOffer? · = none) := by
  rw [pruneImplicit, hleft, Array.toList_filter, List.toList_toArray]
  apply List.filter_congr
  intro r hr
  obtain ⟨reference, href⟩ := Option.isSome_iff_exists.1 (hreferences r hr)
  rw [nameOffer?, href, Option.any_some, Option.bind_some]
  cases hv : p.globalVariable? reference.name <;> simp [hv]

/-- What the final graph holds of implicit globals. -/
theorem implicit_finalize (hg : g.Walked t) (h : Settled g t [.global])
    (hs : ScopeId.global.index < g.scopes.size) (settings : GlobalSettings ν) {f : ScopeGraph ν}
    (hf : f = (g.closeScope t .global).finalize settings) :
    f.implicit.left.toList = f.throughOf .global ∧ f.HoldsSites f.throughSites ∧
      ∀ name v, f.implicit.table.get? name = some v → f.globalVariable? name = none := by
  have hcloses := closes_resolveThrough hg h hs settings rfl
  have hkeeps : g.entered.KeepsApart
      ((g.closeScope t .global).configurePasses settings).resolveThrough := by
    rw [closeScope_global hg.toWellFormed hs]
    exact (KeepsApart.foldl (.settleGlobal t .global) _ _).trans
      ((KeepsApart.configurePasses _ settings).trans (.resolveThrough _))
  have hgrows {name : ν} {v : VariableId} (hv : g.globalVariable? name = some v) :=
    globalVariable?_configurePasses hg h hs settings hv
  have hframe : Frame [.global] g ((g.closeScope t .global).configurePasses settings) :=
    ((frame_closeGlobal hg h hs).mono (List.nil_subset _)).trans
      (configured_closeGlobal hg h hs settings).frame
  rw [finalize_eq] at hf
  generalize (g.closeScope t .global).configurePasses settings = p
    at hcloses hkeeps hgrows hframe hf
  subst hf
  have hlast := frame_resolveThrough p
  have hentered := (entered_spec hg).1
  have hholds := (holdsSites_entered hg).keep hkeeps fun hv => by
    refine (holdsSites_entered hg).apart (hg.toWellFormed.links hentered) ?_ hv
    intro entry hentry
    rw [globalVariable?, hentered.inTable?_eq .global List.not_mem_nil, ← globalVariable?]
    exact Option.isNone_iff_eq_none.1 (List.mem_filter.1 hentry).2
  have hthrough : p.resolveThrough.pruneImplicit.throughOf .global =
      (g.pendingOf .global).filter (p.resolveThrough.pruneImplicit.nameOffer? · = none) := by
    rw [funext hlast.nameOffer?]
    refine (hcloses.throughOf_eq .global).trans ?_
    rw [h.through_open .global (List.mem_singleton.2 rfl), if_pos rfl, List.nil_append]
  have hsites := throughSites_eq
    (hframe.trans (hlast.mono (List.nil_subset _))).siteOf?_eq (fun name v hv => by
      rw [globalVariable?, hlast.inTable?_eq .global List.not_mem_nil]
      exact hgrows hv) hthrough
  refine ⟨?_, hsites ▸ hholds.pruneImplicit, fun name v hv => (get?_pruneImplicit.1 hv).2⟩
  rw [hthrough, toList_left_pruneImplicit (g := g)]
  · rfl
  · rw [hkeeps.implicit_eq]
    rfl
  · intro r hr
    have hsome := h.isSome_getReference? hg.toWellFormed hs (List.mem_singleton.2 rfl) hr
    rw [← hframe.isSome_getReference?, ← hlast.isSome_getReference?] at hsome
    exact hsome

end Finalize

end ScopeGraph

/-- What an analysed file has in its bucket of implicit globals is decided by the references that
its global scope leaves over: for each name that one of them would create, a variable with one
definition for each of them. -/
theorem implicitGlobals_of_through {names names' : NameTable} {t : Tree} {o : LanguageOptions}
    {envs : Environments} {g : ScopeGraph Name} (h : analyze names t o envs = (names', .ok g)) :
    g.implicit.left.toList = g.throughOf .global ∧
    g.implicit.table.keys = (g.throughSites.map (·.1)).eraseDups ∧
    ∀ name ∈ g.implicit.table.keys, g.globalVariable? name = none ∧
      ∃ v, g.implicit.table.get? name = some v ∧
        g.getVariable? v = some (.ofSites v name (sitesAt g.throughSites name)) := by
  obtain ⟨source, hwalking, -, hg⟩ := exists_walking_of_analyze h
  obtain ⟨hleft, hholds, habsent⟩ :=
    ScopeGraph.implicit_finalize hwalking.walked hwalking.settled hwalking.lt_size _ hg
  refine ⟨hleft, hholds.keys_eq, fun name hname => ?_⟩
  rw [OrderedMap.mem_keys_iff, OrderedMap.contains] at hname
  obtain ⟨v, hv⟩ := Option.isSome_iff_exists.1 hname
  exact ⟨habsent name v hv, v, hv, hholds.variable_eq hv⟩

/-- `a = null; b = null; a = b` -/
def assignedTwice : Build NodeId := do
  let assign (name : String) (value : NodeId) : Build NodeId := do
    let target ← .identifier name
    .alloc (.expressionStatement (← .alloc (.assignmentExpression .assign target value)) none)
  let first ← assign "a" (← .null)
  let second ← assign "b" (← .null)
  let third ← assign "a" (← .identifier "b")
  .alloc (.program [first, second, third] .script)

/-- With `b` configured, only `a` is an implicit global. -/
theorem implicitGlobals_assignedTwice : ∃ t names g v, Build.tree assignedTwice = .ok t ∧
    analyze {} t (({} : LanguageOptions).withGlobal "b" .writable) {} = (names, .ok g) ∧
    g.implicit.table.keys = [names.handle "a"] ∧
    g.getVariable? v =
      some (.ofSites v (names.handle "a") [⟨⟨1⟩, ⟨2⟩⟩, ⟨⟨9⟩, ⟨10⟩⟩]) := by
  obtain ⟨t, names, g, ht, h, hsites⟩ := exists_analysis assignedTwice
    (({} : LanguageOptions).withGlobal "b" .writable) {}
    (fun _ names g => g.throughSites =
      [(names.handle "a", ⟨⟨1⟩, ⟨2⟩⟩), (names.handle "a", ⟨⟨9⟩, ⟨10⟩⟩)]) (by decide +kernel)
  obtain ⟨-, hkeys, hvariables⟩ := implicitGlobals_of_through h
  have hnames : g.implicit.table.keys = [names.handle "a"] := by
    rw [hkeys, hsites]
    simp [List.eraseDups_cons]
  obtain ⟨-, v, -, hvar⟩ := hvariables (names.handle "a") (hnames ▸ List.mem_singleton_self _)
  refine ⟨t, names, g, v, ht, h, hnames, ?_⟩
  rw [hvar, hsites]
  simp [sitesAt]

end LexicalScope
