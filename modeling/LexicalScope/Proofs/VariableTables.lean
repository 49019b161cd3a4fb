import LexicalScope.Proofs.ImplicitGlobals
import LexicalScope.Proofs.Spelling
import LexicalScope.Proofs.Stable

/-!
Variables and the tables that hold them. A declared name stands in the table of its scope, an
assigned one among the implicit globals, and whatever makes or changes a variable keeps the two
kinds apart by their definitions. An implicit global loses its entry in the end if the global table
has its name; no other variable is without an entry.
-/
namespace LexicalScope

variable {ν : Type}

namespace Variable

/-- The variable lists the identifiers of its definitions, and they spell its name. -/
structure IsSpelled (spells : NodeId → ν → Prop) (v : Variable ν) : Prop where
  identifiers_eq : v.identifiers = v.definitions.map (·.name)
  spelled : ∀ d ∈ v.definitions, spells d.name v.name

/-- Assignments to an undeclared name define the variable, and nothing else does. -/
structure IsImplicit (v : Variable ν) : Prop where
  nonempty : ∃ d, d ∈ v.definitions
  implicit : ∀ d ∈ v.definitions, d.kind = .implicitGlobal

/-- No assignment to an undeclared name defines the variable. -/
def IsExplicit (v : Variable ν) : Prop :=
  ∀ d ∈ v.definitions, d.kind ≠ .implicitGlobal

variable {spells : NodeId → ν → Prop} {v w : Variable ν}

theorem IsImplicit.not_isExplicit (h : v.IsImplicit) : ¬v.IsExplicit := by
  intro hexplicit
  obtain ⟨d, hd⟩ := h.nonempty
  exact hexplicit d hd (h.implicit d hd)

theorem isSpelled_of_undefined (hdefinitions : v.definitions = #[])
    (hidentifiers : v.identifiers = #[]) : v.IsSpelled spells where
  identifiers_eq := by rw [hidentifiers, hdefinitions, Array.map_empty]
  spelled d hd := absurd (hdefinitions ▸ hd) (Array.not_mem_empty d)

theorem IsSpelled.define (h : v.IsSpelled spells) {d : Definition} (hd : spells d.name v.name) :
    (v.define d).IsSpelled spells where
  identifiers_eq := by simp [Variable.define, h.identifiers_eq]
  spelled e he := (Array.mem_push.1 he).elim (h.spelled e) fun heq => heq ▸ hd

theorem IsExplicit.define (h : v.IsExplicit) {d : Definition} (hd : d.kind ≠ .implicitGlobal) :
    (v.define d).IsExplicit :=
  fun e he => (Array.mem_push.1 he).elim (h e) fun heq => heq ▸ hd

theorem isImplicit_define (h : ∀ d ∈ v.definitions, d.kind = .implicitGlobal) {d : Definition}
    (hd : d.kind = .implicitGlobal) : (v.define d).IsImplicit where
  nonempty := ⟨d, Array.mem_push_self⟩
  implicit e he := (Array.mem_push.1 he).elim (h e) fun heq => heq ▸ hd

section Congr

variable (h : v.declaration = w.declaration)
include h

theorem congr_declaration :
    v.scope = w.scope ∧ v.name = w.name ∧ v.identifiers = w.identifiers ∧
      v.definitions = w.definitions := by
  simp only [declaration, Prod.mk.injEq] at h
  exact ⟨h.2.2.1, h.2.1, h.2.2.2⟩

theorem isSpelled_congr (hw : w.IsSpelled spells) : v.IsSpelled spells := by
  obtain ⟨-, hname, hidentifiers, hdefinitions⟩ := congr_declaration h
  constructor
  · rw [hidentifiers, hdefinitions]
    exact hw.identifiers_eq
  · rw [hname, hdefinitions]
    exact hw.spelled

theorem isImplicit_congr (hw : w.IsImplicit) : v.IsImplicit := by
  obtain ⟨-, -, -, hdefinitions⟩ := congr_declaration h
  constructor
  · rw [hdefinitions]
    exact hw.nonempty
  · rw [hdefinitions]
    exact hw.implicit

theorem isExplicit_congr (hw : w.IsExplicit) : v.IsExplicit := by
  rw [IsExplicit, (congr_declaration h).2.2.2]
  exact hw

end Congr

end Variable

namespace ScopeGraph

variable [DecidableEq ν]

theorem getVariable?_bind_of_some {g : ScopeGraph ν} {v : VariableId} {x : Variable ν}
    (hv : g.getVariable? v = some x) (s : ScopeId) (name : ν) :
    (g.bind s name).1.getVariable? v = some x := by
  rw [getVariable?_bind, if_neg, hv]
  rintro ⟨rfl, -⟩
  rw [getVariable?_nextVariable] at hv
  cases hv

theorem inTable?_bind_of_some {g : ScopeGraph ν} {x : ScopeId} {m : ν} {v : VariableId}
    (hv : g.inTable? x m = some v) (s : ScopeId) (name : ν) :
    (g.bind s name).1.inTable? x m = some v := by
  rw [inTable?, getScope?_bind]
  split
  · next hnew =>
    obtain ⟨rfl, hnone⟩ := hnew
    have hm : m ≠ name := by
      rintro rfl
      rw [hnone] at hv
      cases hv
    obtain ⟨scope, hscope, hentry⟩ := Option.bind_eq_some_iff.1 hv
    rw [hscope, Option.map_some, Option.bind_some, OrderedMap.get?_insert, if_neg hm, hentry]
  · exact hv

/-- The variable of every entry has the name and the scope of the entry, every variable has an
entry unless it is an implicit global whose name the global table has, and what is in the tables is
declared otherwise than what is among the implicit globals. -/
structure Catalogued (spells : NodeId → ν → Prop) (g : ScopeGraph ν) : Prop where
  global_lt : ScopeId.global.index < g.scopes.size
  spelled : ∀ {v x}, g.getVariable? v = some x → x.IsSpelled spells
  /-- An assignment that would create a global is at an identifier that spells its name. -/
  site : ∀ {r x site}, g.getReference? r = some x → x.site = some site →
    spells site.pattern x.name
  table : ∀ {s name v}, g.inTable? s name = some v →
    ∃ x, g.getVariable? v = some x ∧ x.scope = s ∧ x.name = name ∧ x.IsExplicit
  implicit : ∀ {name v}, g.implicit.table.get? name = some v →
    ∃ x, g.getVariable? v = some x ∧ x.scope = .global ∧ x.name = name ∧ x.IsImplicit
  held : ∀ {v x}, g.getVariable? v = some x → g.inTable? x.scope x.name = some v ∨
    x.IsImplicit ∧ (g.implicit.table.get? x.name = some v ∨ (g.globalVariable? x.name).isSome)

namespace Catalogued

variable {spells : NodeId → ν → Prop} {g g' : ScopeGraph ν}

/-- Changes to neither the tables nor the declarations of variables. -/
theorem congr (h : g.Catalogued spells) (hsize : g.scopes.size ≤ g'.scopes.size)
    (htable : ∀ s name, g'.inTable? s name = g.inTable? s name)
    (hvariable : ∀ v, (g'.getVariable? v).map Variable.declaration =
      (g.getVariable? v).map Variable.declaration)
    (himplicit : g'.implicit = g.implicit)
    (hsite : ∀ {r x site}, g'.getReference? r = some x → x.site = some site →
      spells site.pattern x.name) : g'.Catalogued spells := by
  have hbefore {v : VariableId} {x' : Variable ν} (hv : g'.getVariable? v = some x') :
      ∃ x, g.getVariable? v = some x ∧ x.declaration = x'.declaration := by
    have hmap := hvariable v
    rw [hv, Option.map_some] at hmap
    exact Option.map_eq_some_iff.1 hmap.symm
  have hafter {v : VariableId} {x : Variable ν} (hv : g.getVariable? v = some x) :
      ∃ x', g'.getVariable? v = some x' ∧ x'.declaration = x.declaration := by
    have hmap := hvariable v
    rw [hv, Option.map_some] at hmap
    exact Option.map_eq_some_iff.1 hmap
  refine ⟨Nat.lt_of_lt_of_le h.global_lt hsize, fun hv => ?_, hsite, fun hv => ?_,
    fun hv => ?_, fun hv => ?_⟩
  · obtain ⟨x, hx, heq⟩ := hbefore hv
    exact Variable.isSpelled_congr heq.symm (h.spelled hx)
  · rw [htable] at hv
    obtain ⟨x, hx, hscope, hname, hexplicit⟩ := h.table hv
    obtain ⟨x', hx', heq⟩ := hafter hx
    obtain ⟨hscope', hname', -⟩ := Variable.congr_declaration heq
    exact ⟨x', hx', hscope'.trans hscope, hname'.trans hname,
      Variable.isExplicit_congr heq hexplicit⟩
  · rw [himplicit] at hv
    obtain ⟨x, hx, hscope, hname, hkind⟩ := h.implicit hv
    obtain ⟨x', hx', heq⟩ := hafter hx
    obtain ⟨hscope', hname', -⟩ := Variable.congr_declaration heq
    exact ⟨x', hx', hscope'.trans hscope, hname'.trans hname,
      Variable.isImplicit_congr heq hkind⟩
  · obtain ⟨x, hx, heq⟩ := hbefore hv
    obtain ⟨hscope, hname, -⟩ := Variable.congr_declaration heq
    rw [← hscope, ← hname, himplicit, globalVariable?, htable, htable]
    exact (h.held hx).imp_right fun hbucket =>
      ⟨Variable.isImplicit_congr heq.symm hbucket.1, hbucket.2⟩

variable (h : g.Catalogued spells)
include h

/-- The only new variable has no definition, and its entry is the one that is added. -/
theorem bind {s : ScopeId} (hs : s.index < g.scopes.size) (name : ν) :
    (g.bind s name).1.Catalogued spells := by
  refine ⟨?_, fun {v x} hv => ?_, fun {r x site} hr => ?_, fun {x m v} hv => ?_,
    fun {m v} hv => ?_, fun {v x} hv => ?_⟩
  · have hsize := (revises_declare g s name none).samePositions.size_scopes
    exact Nat.lt_of_lt_of_eq h.global_lt hsize.symm
  · rw [getVariable?_bind] at hv
    split at hv
    · obtain rfl := Option.some.inj hv
      exact Variable.isSpelled_of_undefined rfl rfl
    · exact h.spelled hv
  · rw [getReference?_bind] at hr
    exact h.site hr
  · cases hm : g.inTable? x m with
    | some w =>
      obtain rfl := Option.some.inj ((inTable?_bind_of_some hm s name).symm.trans hv)
      obtain ⟨y, hy, hrest⟩ := h.table hm
      exact ⟨y, getVariable?_bind_of_some hy s name, hrest⟩
    | none =>
      rw [inTable?_bind g s name hs] at hv
      split at hv
      · next heq =>
        obtain ⟨rfl, rfl⟩ := heq
        rw [bind_snd, hm, Option.getD_none] at hv
        obtain rfl := Option.some.inj hv
        exact ⟨_, (getVariable?_bind ..).trans (if_pos ⟨rfl, hm⟩), rfl, rfl,
          fun d hd => absurd hd (Array.not_mem_empty d)⟩
      · rw [hm] at hv
        cases hv
  · rw [implicit_bind] at hv
    obtain ⟨y, hy, hrest⟩ := h.implicit hv
    exact ⟨y, getVariable?_bind_of_some hy s name, hrest⟩
  · rw [getVariable?_bind] at hv
    split at hv
    · next hnew =>
      obtain rfl := Option.some.inj hv
      left
      rw [inTable?_bind g s name hs, if_pos ⟨rfl, rfl⟩, bind_snd, hnew.2, Option.getD_none, hnew.1]
    · refine (h.held hv).imp (inTable?_bind_of_some · s name) (.imp_right fun hbucket => ?_)
      rw [implicit_bind]
      refine hbucket.imp_right fun hsome => ?_
      obtain ⟨w, hw⟩ := Option.isSome_iff_exists.1 hsome
      exact Option.isSome_iff_exists.2 ⟨w, inTable?_bind_of_some hw s name⟩

/-- One more definition for a variable that a table holds. -/
theorem define {s : ScopeId} {name : ν} {w : VariableId} (hw : g.inTable? s name = some w)
    {d : Definition} (hkind : d.kind ≠ .implicitGlobal) (hspelled : spells d.name name) :
    (g.define w d).Catalogued spells := by
  obtain ⟨y, hy, rfl, rfl, hexplicit⟩ := h.table hw
  have hnew : (g.define w d).getVariable? w = some (y.define d) := by
    rw [getVariable?_define, if_pos rfl, hy, Option.map_some]
  have hne {v : VariableId} (hv : v ≠ w) : (g.define w d).getVariable? v = g.getVariable? v := by
    rw [getVariable?_define, if_neg hv]
  refine ⟨h.global_lt, fun {v x} hv => ?_, h.site, fun {x m v} hv => ?_, fun {m v} hv => ?_,
    fun {v x} hv => ?_⟩
  · by_cases heq : v = w
    · subst heq
      obtain rfl := Option.some.inj (hnew.symm.trans hv)
      exact (h.spelled hy).define hspelled
    · exact h.spelled ((hne heq).symm.trans hv)
  · by_cases heq : v = w
    · subst heq
      obtain ⟨y', hy', hscope, hname, -⟩ := h.table hv
      obtain rfl := Option.some.inj (hy.symm.trans hy')
      exact ⟨y.define d, hnew, hscope, hname, hexplicit.define hkind⟩
    · rw [hne heq]
      exact h.table hv
  · by_cases heq : v = w
    · subst heq
      obtain ⟨y', hy', -, -, himplicit⟩ := h.implicit hv
      obtain rfl := Option.some.inj (hy.symm.trans hy')
      exact absurd hexplicit himplicit.not_isExplicit
    · rw [hne heq]
      exact h.implicit hv
  · by_cases heq : v = w
    · subst heq
      obtain rfl := Option.some.inj (hnew.symm.trans hv)
      exact .inl hw
    · exact h.held ((hne heq).symm.trans hv)

theorem declare {s : ScopeId} (hs : s.index < g.scopes.size) (name : ν) (d : Option Definition)
    (hd : ∀ e ∈ d, e.kind ≠ .implicitGlobal ∧ spells e.name name) :
    (g.declare s name d).Catalogued spells := by
  have hbind := h.bind hs name
  cases d with
  | none => exact hbind
  | some d =>
    have hentry : (g.bind s name).1.inTable? s name = some (g.bind s name).2 := by
      rw [inTable?_bind g s name hs, if_pos ⟨rfl, rfl⟩]
    exact hbind.define hentry (hd d rfl).1 (hd d rfl).2

/-- The variable that an assignment finds or adds, before it gets its definition. -/
theorem exists_bindImplicit (name : ν) :
    ∃ y, (g.bindImplicit name).1.getVariable? (g.bindImplicit name).2 = some y ∧
      y.scope = .global ∧ y.name = name ∧ y.IsSpelled spells ∧
      ∀ d ∈ y.definitions, d.kind = .implicitGlobal := by
  cases hname : g.implicit.table.get? name with
  | some w =>
    obtain ⟨y, hy, hscope, hname', himplicit⟩ := h.implicit hname
    refine ⟨y, ?_, hscope, hname', h.spelled hy, himplicit.implicit⟩
    rw [getVariable?_bindImplicit, bindImplicit_snd, hname, Option.getD_some, if_neg, hy]
    exact fun hnone => nomatch hnone.2
  | none =>
    refine ⟨{ id := g.nextVariable, name, scope := .global }, ?_, rfl, rfl,
      Variable.isSpelled_of_undefined rfl rfl, fun d hd => absurd hd (Array.not_mem_empty d)⟩
    rw [getVariable?_bindImplicit, bindImplicit_snd, hname, Option.getD_none, if_pos ⟨rfl, rfl⟩]

omit h in
/-- An assignment adds no other variable. -/
theorem getVariable?_bindImplicit_of_ne {name : ν} {v : VariableId}
    (hv : v ≠ (g.bindImplicit name).2) :
    (g.bindImplicit name).1.getVariable? v = g.getVariable? v := by
  rw [getVariable?_bindImplicit, if_neg]
  rintro ⟨rfl, hname⟩
  rw [bindImplicit_snd, hname] at hv
  exact hv rfl

/-- An assignment finds no variable of another name and none that is declared. -/
theorem ne_bindImplicit {name : ν} {v : VariableId} {x : Variable ν}
    (hx : g.getVariable? v = some x) (hother : x.IsImplicit → x.name ≠ name) :
    v ≠ (g.bindImplicit name).2 := by
  rw [bindImplicit_snd]
  rintro rfl
  cases hname : g.implicit.table.get? name with
  | none =>
    rw [hname, Option.getD_none, getVariable?_nextVariable] at hx
    cases hx
  | some w =>
    rw [hname, Option.getD_some] at hx
    obtain ⟨y, hy, -, hname', himplicit⟩ := h.implicit hname
    obtain rfl := Option.some.inj (hx.symm.trans hy)
    exact hother himplicit hname'

/-- An implicit global is entered under the name of its definition. -/
theorem declareImplicit {name : ν} {d : Definition} (hkind : d.kind = .implicitGlobal)
    (hspelled : spells d.name name) : (g.declareImplicit name d).Catalogued spells := by
  obtain ⟨y, hy, hscope, hname, hyspelled, hyimplicit⟩ := h.exists_bindImplicit name
  have hnew : (g.declareImplicit name d).getVariable? (g.bindImplicit name).2 =
      some (y.define d) := by
    rw [getVariable?_declareImplicit, if_pos rfl, hy, Option.map_some]
  have hne {v : VariableId} (hv : v ≠ (g.bindImplicit name).2) :
      (g.declareImplicit name d).getVariable? v = g.getVariable? v := by
    rw [getVariable?_declareImplicit, if_neg hv, getVariable?_bindImplicit_of_ne hv]
  have himplicit := Variable.isImplicit_define hyimplicit hkind
  refine ⟨?_, fun {v x} hv => ?_, fun {r x site} hr => ?_, fun {s m v} hv => ?_,
    fun {m v} hv => ?_, fun {v x} hv => ?_⟩
  · rw [← isSome_getScope?_iff, getScope?_declareImplicit, isSome_getScope?_iff]
    exact h.global_lt
  · by_cases heq : v = (g.bindImplicit name).2
    · subst heq
      obtain rfl := Option.some.inj (hnew.symm.trans hv)
      exact hyspelled.define (hname ▸ hspelled)
    · exact h.spelled ((hne heq).symm.trans hv)
  · rw [getReference?_declareImplicit] at hr
    exact h.site hr
  · rw [inTable?_declareImplicit] at hv
    obtain ⟨x, hx, hscope', hname', hexplicit⟩ := h.table hv
    refine ⟨x, ?_, hscope', hname', hexplicit⟩
    rw [hne (h.ne_bindImplicit hx fun himplicit => absurd hexplicit himplicit.not_isExplicit), hx]
  · rw [implicit_declareImplicit, get?_bindImplicit] at hv
    split at hv
    · next hm =>
      obtain rfl := Option.some.inj hv
      exact ⟨y.define d, hnew, hscope, hname.trans hm.symm, himplicit⟩
    · next hm =>
      obtain ⟨x, hx, hscope', hname', himplicit'⟩ := h.implicit hv
      refine ⟨x, ?_, hscope', hname', himplicit'⟩
      rw [hne (h.ne_bindImplicit hx fun _ heq => hm (hname'.symm.trans heq)), hx]
  · rw [globalVariable?, inTable?_declareImplicit, inTable?_declareImplicit,
      implicit_declareImplicit, get?_bindImplicit]
    by_cases heq : v = (g.bindImplicit name).2
    · subst heq
      obtain rfl := Option.some.inj (hnew.symm.trans hv)
      exact .inr ⟨himplicit, .inl (if_pos hname)⟩
    · refine (h.held ((hne heq).symm.trans hv)).imp_right (.imp_right (.imp_left fun hentry => ?_))
      rw [if_neg, hentry]
      rintro rfl
      rw [bindImplicit_snd, hentry] at heq
      exact heq rfl

theorem modifyScope {f : Scope ν → Scope ν} (hf : ∀ x, (f x).table = x.table) (s : ScopeId) :
    (g.modifyScope s f).Catalogued spells := by
  refine h.congr (Nat.le_of_eq (size_scopes_modifyScope g s f).symm) (fun x m => ?_)
    (fun _ => rfl) rfl h.site
  exact g.inTable?_modifyScope hf s x m

omit h in
/-- The closing of scopes and the settings keep tables and variables in step. -/
theorem stable (spells : NodeId → ν → Prop) :
    Stable (Catalogued spells : ScopeGraph ν → Prop) where
  modifyScope _ htable _ h := h.modifyScope htable _
  modifyReference {g r f} hf h := by
    refine h.congr (Nat.le_refl _) (fun _ _ => rfl) (fun _ => rfl) rfl fun {x y site} hx hsite => ?_
    rw [getReference?_modifyReference] at hx
    split at hx
    · obtain ⟨y', hy', rfl⟩ := Option.map_eq_some_iff.1 hx
      have hkept := congrArg (fun y : Reference ν => (y.site, y.name)) (hf y')
      obtain ⟨hsite', hname⟩ : (f y').site = y'.site ∧ (f y').name = y'.name :=
        Prod.mk.inj hkept
      rw [hname]
      exact h.site hy' (hsite'.symm.trans hsite)
    · exact h.site hx hsite
  modifyVariable {g w f} hf h := by
    refine h.congr (Nat.le_refl _) (fun _ _ => rfl) (fun v => ?_) rfl h.site
    rw [getVariable?_modifyVariable]
    split
    · cases g.getVariable? v <;> simp [hf]
    · rfl
  bindGlobal h := h.bind h.global_lt _
  declareImplicit href hsite hkind hname h :=
    h.declareImplicit hkind (hname ▸ h.site href hsite)
  setImplicit hsub hdropped h :=
    ⟨h.global_lt, h.spelled, h.site, h.table, fun hv => h.implicit (hsub _ _ hv),
      fun hv => (h.held hv).imp_right fun ⟨himplicit, hbucket⟩ =>
        ⟨himplicit, hbucket.elim (hdropped _ _) .inr⟩⟩

theorem openScope (kind : ScopeKind) (block : NodeId) (strict : Bool) (upper : Option ScopeId) :
    (g.openScope kind block strict upper).Catalogued spells := by
  refine h.congr ?_ (fun s name => inTable?_openScope g kind block strict upper s name)
    (fun v => by rw [getVariable?_openScope]) ?_ fun hr hsite => ?_
  · rw [size_scopes_openScope]
    omega
  · cases upper <;> rfl
  · rw [getReference?_openScope] at hr
    exact h.site hr hsite

theorem addReference (r : Reference ν)
    (hr : ∀ site, r.site = some site → spells site.pattern r.name) :
    (g.addReference r).Catalogued spells := by
  refine h.congr (Nat.le_of_eq (samePositions_addReference g r).size_scopes.symm)
    (fun s name => inTable?_addReference g r s name) (fun _ => rfl) rfl
    fun {x y site} hx hsite => ?_
  rw [getReference?_addReference] at hx
  split at hx
  · obtain rfl := Option.some.inj hx
    exact hr site hsite
  · exact h.site hx hsite

end Catalogued

/-- Spelled steps lead to catalogued variables. -/
theorem walkInvariant_catalogued (t : Tree) (spells : NodeId → ν → Prop) :
    WalkInvariant t fun (trace : List (Located ν)) c =>
      (∀ l ∈ trace, l.step.IsSpelled spells) → c.graph.Catalogued spells where
  enter {_ c _ kind} _ hc _ block strict htrace :=
    (hc (List.forall_mem_append.1 htrace).1).openScope kind block strict c.opened.head?
  close {_ _ s _ _ _} _ hc _ htrace := (Catalogued.stable spells).closeScope t s (hc htrace)
  declare {_ c _} h hc place name d htrace := by
    obtain ⟨htrace, hstep⟩ := List.forall_mem_append.1 htrace
    refine (hc htrace).declare (h.size_of_mem_opened (h.place_mem_opened place)) name d ?_
    intro e he
    obtain rfl : d = some e := he
    exact hstep _ (List.mem_singleton_self _)
  refer {_ c _} _ hc o htrace := by
    obtain ⟨htrace, hstep⟩ := List.forall_mem_append.1 htrace
    have hspelled : spells o.identifier o.name := hstep _ (List.mem_singleton_self _)
    refine (hc htrace).addReference _ fun site hsite => ?_
    unfold Cursor.reference at hsite
    dsimp only at hsite
    split at hsite
    · cases hsite
    · obtain ⟨node, -, rfl⟩ := Option.map_eq_some_iff.1 hsite
      exact hspelled
  this _ hc htrace :=
    (hc (List.forall_mem_append.1 htrace).1).modifyScope (by exact fun _ => rfl) _
  misplacedImport _ hc _ htrace := hc (List.forall_mem_append.1 htrace).1

theorem catalogued_root (block : NodeId) (strict : Bool) (spells : NodeId → ν → Prop) :
    (({} : Cursor ν).enter .global block strict).graph.Catalogued spells where
  global_lt := Nat.zero_lt_one
  spelled hv := nomatch hv
  site hr := nomatch hr
  table hv := by
    obtain ⟨x, hx, -⟩ := (wellFormed_root block strict).inTable hv
    cases hx
  implicit hv := nomatch hv
  held hv := nomatch hv

end ScopeGraph

/-- A place that can hold a variable. -/
inductive Entry (ν : Type) where
  | table (s : ScopeId) (name : ν)
  | implicit (name : ν)

namespace ScopeGraph

variable [DecidableEq ν]

def entry? (g : ScopeGraph ν) : Entry ν → Option VariableId
  | .table s name => g.inTable? s name
  | .implicit name => g.implicit.table.get? name

/-- The tables agree with the variables, and the variables with the names in the source. -/
structure Consistent (t : Tree) (text : ν → String) (g : ScopeGraph ν) : Prop where
  table : ∀ {s name v}, g.entry? (.table s name) = some v → g.Owns s name v
  implicit : ∀ {name v}, g.entry? (.implicit name) = some v → g.Owns .global name v
  entry_unique : ∀ {e e' v}, g.entry? e = some v → g.entry? e' = some v → e = e'
  /-- Only implicit globals whose names ended up in the global table have no entry. -/
  unheld_iff : ∀ {v x}, g.getVariable? v = some x →
    ((∀ e, g.entry? e ≠ some v) ↔ x.IsImplicit ∧ (g.globalVariable? x.name).isSome)
  spelled : ∀ {v x}, g.getVariable? v = some x →
    x.IsSpelled fun n name => t.identifierName? n = some (text name)

/-- Definitions tell apart what is in the tables and what is among the implicit globals. -/
theorem Catalogued.entry_unique {spells : NodeId → ν → Prop} {g : ScopeGraph ν}
    (h : g.Catalogued spells) {e e' : Entry ν} {v : VariableId} (he : g.entry? e = some v)
    (he' : g.entry? e' = some v) : e = e' := by
  cases e with
  | table s name =>
    obtain ⟨x, hx, rfl, rfl, hexplicit⟩ := h.table he
    cases e' with
    | table s' name' =>
      obtain ⟨x', hx', rfl, rfl, -⟩ := h.table he'
      obtain rfl := Option.some.inj (hx.symm.trans hx')
      rfl
    | implicit name' =>
      obtain ⟨x', hx', -, -, himplicit⟩ := h.implicit he'
      obtain rfl := Option.some.inj (hx.symm.trans hx')
      exact absurd hexplicit himplicit.not_isExplicit
  | implicit name =>
    obtain ⟨x, hx, -, rfl, himplicit⟩ := h.implicit he
    cases e' with
    | table s' name' =>
      obtain ⟨x', hx', -, -, hexplicit⟩ := h.table he'
      obtain rfl := Option.some.inj (hx.symm.trans hx')
      exact absurd hexplicit himplicit.not_isExplicit
    | implicit name' =>
      obtain ⟨x', hx', -, rfl, -⟩ := h.implicit he'
      obtain rfl := Option.some.inj (hx.symm.trans hx')
      rfl

/-- Tables and variables in step are consistent once no implicit global has the name of a global. -/
theorem Catalogued.consistent {t : Tree} {text : ν → String} {g : ScopeGraph ν}
    (h : g.Catalogued fun n name => t.Spells n (text name))
    (hpruned : ∀ name v, g.implicit.table.get? name = some v → g.globalVariable? name = none) :
    g.Consistent t text where
  table hv := by
    obtain ⟨x, hx, hscope, hname, -⟩ := h.table hv
    exact ⟨x, hx, hscope, hname⟩
  implicit hv := by
    obtain ⟨x, hx, hscope, hname, -⟩ := h.implicit hv
    exact ⟨x, hx, hscope, hname⟩
  entry_unique := h.entry_unique
  unheld_iff {v x} hv := by
    constructor
    · intro hunheld
      rcases h.held hv with htable | ⟨himplicit, hentry | hsome⟩
      · exact absurd htable (hunheld (.table x.scope x.name))
      · exact absurd hentry (hunheld (.implicit x.name))
      · exact ⟨himplicit, hsome⟩
    · intro ⟨himplicit, hsome⟩ e he
      cases e with
      | table s name =>
        obtain ⟨x', hx', -, -, hexplicit⟩ := h.table he
        obtain rfl := Option.some.inj (hv.symm.trans hx')
        exact himplicit.not_isExplicit hexplicit
      | implicit name =>
        obtain ⟨x', hx', -, rfl, -⟩ := h.implicit he
        obtain rfl := Option.some.inj (hv.symm.trans hx')
        rw [hpruned _ _ he] at hsome
        cases hsome
  spelled := h.spelled

end ScopeGraph

/-- Pruning leaves no implicit global whose name the global table has. -/
theorem ScopeGraph.globalVariable?_of_implicit {g : ScopeGraph ν} [DecidableEq ν]
    {settings : GlobalSettings ν} {name : ν} {v : VariableId}
    (hv : (g.finalize settings).implicit.table.get? name = some v) :
    (g.finalize settings).globalVariable? name = none := by
  rw [finalize_eq] at hv ⊢
  exact (get?_pruneImplicit.1 hv).2

/-- The variable tables of an analysed file are consistent. -/
theorem consistent_of_analyze {names names' : NameTable} {t : Tree} {o : LanguageOptions}
    {envs : Environments} {g : ScopeGraph Name} (h : analyze names t o envs = (names', .ok g)) :
    g.Consistent t names'.resolve := by
  obtain ⟨outline, source, houtline, -, -, hsource, rfl⟩ :=
    (ScopeGraph.walkInvariant_catalogued t
      fun n name => t.Spells n (names'.resolve name)).of_analyze
        (fun strict _ => ScopeGraph.catalogued_root t.root strict _) h
  have hcatalogued := hsource fun l hl => spelled_of_analyze h houtline hl
  exact ((ScopeGraph.Catalogued.stable _).conclude t _ hcatalogued).consistent
    fun name v hv => ScopeGraph.globalVariable?_of_implicit hv

/-- With `b` configured, no entry leads to the variable that the assignment to it defines. -/
theorem unheld_assignedTwice : ∃ t names g v x, Build.tree assignedTwice = .ok t ∧
    analyze {} t (({} : LanguageOptions).withGlobal "b" .writable) {} = (names, .ok g) ∧
    g.getVariable? v = some x ∧ names.resolve x.name = "b" ∧ x.identifiers = #[⟨5⟩] ∧
    ∀ e, g.entry? e ≠ some v := by
  obtain ⟨t, names, g, ht, h, hvar, hname, hglobal⟩ := exists_analysis assignedTwice
    (({} : LanguageOptions).withGlobal "b" .writable) {}
    (fun _ names g => g.getVariable? ⟨1⟩ =
        some (.ofSites ⟨1⟩ (names.handle "b") [⟨⟨5⟩, ⟨6⟩⟩]) ∧
      names.resolve (names.handle "b") = "b" ∧ (g.globalVariable? (names.handle "b")).isSome)
    (by decide +kernel)
  refine ⟨t, names, g, _, _, ht, h, hvar, hname, rfl, ?_⟩
  rw [(consistent_of_analyze h).unheld_iff hvar]
  refine ⟨⟨⟨.ofSite ⟨⟨5⟩, ⟨6⟩⟩, List.mem_toArray.2 (List.mem_singleton_self _)⟩, ?_⟩, hglobal⟩
  intro d hd
  rw [List.mem_singleton.1 (List.mem_toArray.1 hd)]
  rfl

end LexicalScope
