import LexicalScope.Proofs.Enclosing
import LexicalScope.Proofs.ReferenceLists
import LexicalScope.Proofs.Stable
import LexicalScope.Proofs.Standing

/-!
Tainting. A `with` body taints what it hands on. A reference that waits in it is not bound yet, so
no variable has it in its list, and what a variable takes over when it is linked stays right. In
the end a reference is tainted exactly if it came out of a `with` body before it met its variable.
-/
namespace LexicalScope

variable {ν : Type}

namespace ScopeGraph

def isTainted (g : ScopeGraph ν) (r : ReferenceId) : Bool :=
  (g.getReference? r).any (·.tainted)

/-- The references with property `p` are tainted, and so are the variables that list one. -/
structure Taints (g : ScopeGraph ν) (p : ReferenceId → Prop) : Prop where
  isTainted_iff : ∀ r, g.isTainted r = true ↔ p r
  tainted_iff : ∀ v variable', g.getVariable? v = some variable' →
    (variable'.tainted = true ↔ ∃ r ∈ variable'.references, p r)

def CameThroughWith (g : ScopeGraph ν) (r : ReferenceId) : Prop :=
  ∃ s, g.kindOf? s = some .withBody ∧ r ∈ g.throughOf s

namespace Taints

variable {g g' : ScopeGraph ν} {p p' : ReferenceId → Prop}

theorem congr (h : g.Taints p) (hp : ∀ r, p r ↔ p' r) : g.Taints p' where
  isTainted_iff r := (h.isTainted_iff r).trans (hp r)
  tainted_iff v variable' hvar := by
    simp only [← hp]
    exact h.tainted_iff v variable' hvar

/-- Neither the references change, nor what is bound to a variable; new variables are not bound
to anything. -/
theorem of_bound (h : g.Taints p) (href : ∀ r, g'.isTainted r = g.isTainted r)
    (hvar : ∀ v variable', g'.getVariable? v = some variable' → variable'.bound = (#[], false) ∨
      ∃ old, g.getVariable? v = some old ∧ variable'.bound = old.bound) : g'.Taints p where
  isTainted_iff r := by
    rw [href]
    exact h.isTainted_iff r
  tainted_iff v variable' hv := by
    rcases hvar v variable' hv with hnew | ⟨old, hold, hsame⟩
    · obtain ⟨hreferences, htainted⟩ := Prod.mk.inj hnew
      simp [hreferences, htainted]
    · obtain ⟨hreferences, htainted⟩ := Prod.mk.inj hsame
      rw [hreferences, htainted]
      exact h.tainted_iff v old hold

theorem modifyVariable (h : g.Taints p) {f : Variable ν → Variable ν}
    (hf : ∀ x, (f x).bound = x.bound) (v : VariableId) : (g.modifyVariable v f).Taints p := by
  refine h.of_bound (fun _ => rfl) fun x variable' hx => .inr ?_
  rw [getVariable?_modifyVariable] at hx
  split at hx
  · obtain ⟨old, hold, rfl⟩ := Option.map_eq_some_iff.1 hx
    exact ⟨old, hold, hf old⟩
  · exact ⟨variable', hx, rfl⟩

theorem define (h : g.Taints p) (v : VariableId) (d : Definition) : (g.define v d).Taints p :=
  ⟨h.isTainted_iff, (h.modifyVariable (f := (·.define d)) (fun _ => rfl) v).tainted_iff⟩

/-- A tainted reference taints the variable that it is linked to. -/
theorem link (h : g.Taints p) (r : ReferenceId) (v : VariableId) : (g.link r v).Taints p where
  isTainted_iff x := by
    have hsame : (g.link r v).isTainted x = g.isTainted x := by
      rw [isTainted, ScopeGraph.link, getReference?_modifyVariable, getReference?_modifyReference,
        isTainted]
      split <;> cases g.getReference? x <;> rfl
    rw [hsame]
    exact h.isTainted_iff x
  tainted_iff x variable' hx := by
    rw [ScopeGraph.link, getVariable?_modifyVariable, getVariable?_modifyReference] at hx
    split at hx
    · obtain ⟨old, hold, rfl⟩ := Option.map_eq_some_iff.1 hx
      have hr : (g.getReference? r).any (·.tainted) = true ↔ p r := h.isTainted_iff r
      simp only [Bool.or_eq_true, h.tainted_iff x old hold, hr, Array.mem_push]
      constructor
      · rintro (⟨r', hr', hp⟩ | hp)
        · exact ⟨r', .inl hr', hp⟩
        · exact ⟨r, .inr rfl, hp⟩
      · rintro ⟨r', hr' | rfl, hp⟩
        · exact .inl ⟨r', hr', hp⟩
        · exact .inr hp
    · exact h.tainted_iff x variable' hx

variable [DecidableEq ν]

theorem bind (h : g.Taints p) (s : ScopeId) (name : ν) : (g.bind s name).1.Taints p := by
  refine h.of_bound (fun r => ?_) fun x variable' hx => ?_
  · rw [isTainted, getReference?_bind, isTainted]
  · rw [getVariable?_bind] at hx
    split at hx
    · obtain rfl := Option.some.inj hx
      exact .inl rfl
    · exact .inr ⟨variable', hx, rfl⟩

theorem declare (h : g.Taints p) (s : ScopeId) (name : ν) (d : Option Definition) :
    (g.declare s name d).Taints p := by
  cases d with
  | none => exact h.bind s name
  | some d => exact (h.bind s name).define _ d

theorem declareImplicit (h : g.Taints p) (name : ν) (d : Definition) :
    (g.declareImplicit name d).Taints p := by
  have hbound : (g.bindImplicit name).1.Taints p := by
    refine h.of_bound (fun r => ?_) fun x variable' hx => ?_
    · unfold bindImplicit
      split <;> rfl
    · rw [getVariable?_bindImplicit] at hx
      split at hx
      · obtain rfl := Option.some.inj hx
        exact .inl rfl
      · exact .inr ⟨variable', hx, rfl⟩
  exact hbound.define _ d

theorem steady (p : ReferenceId → Prop) : Steady fun g : ScopeGraph ν => g.Taints p where
  modifyScope _ _ _ h := ⟨h.isTainted_iff, h.tainted_iff⟩
  link r v h := h.link r v
  setUp hf h := h.modifyVariable (fun x => congrArg (·.2) (hf x)) _
  bindGlobal h := h.bind _ _
  declareImplicit _ _ _ _ h := h.declareImplicit _ _
  setImplicit _ _ h := ⟨h.isTainted_iff, h.tainted_iff⟩

end Taints

section HandOn

variable (g : ScopeGraph ν) (s : ScopeId)

theorem getReference?_delegate [DecidableEq ν] (r x : ReferenceId) :
    (g.delegate s r).getReference? x = g.getReference? x := by
  unfold delegate
  cases (g.getScope? s).bind (·.upper) <;> rfl

theorem getVariable?_delegate [DecidableEq ν] (r : ReferenceId) (v : VariableId) :
    (g.delegate s r).getVariable? v = g.getVariable? v := by
  unfold delegate
  cases (g.getScope? s).bind (·.upper) <;> rfl

end HandOn

section Close

variable [DecidableEq ν] {g g' : ScopeGraph ν} {t : Tree} {s : ScopeId} {outer : List ScopeId}

/-- The references that a `with` body hands on are tainted, and nothing is linked meanwhile. -/
theorem foldl_taint_delegate (ids : List ReferenceId) (g : ScopeGraph ν) (s : ScopeId) :
    (∀ r, (ids.foldl (fun g r => (g.taint r).delegate s r) g).isTainted r = true ↔
      g.isTainted r = true ∨ r ∈ ids ∧ (g.getReference? r).isSome) ∧
    ∀ v, (ids.foldl (fun g r => (g.taint r).delegate s r) g).getVariable? v =
      g.getVariable? v := by
  induction ids generalizing g with
  | nil => simp
  | cons x ids ih =>
    obtain ⟨hreferences, hvariables⟩ := ih ((g.taint x).delegate s x)
    have hreference (r : ReferenceId) : ((g.taint x).delegate s x).getReference? r =
        if r = x then (g.getReference? r).map fun r => { r with tainted := true }
        else g.getReference? r := by
      rw [getReference?_delegate, taint, getReference?_modifyReference]
    refine ⟨fun r => ?_, fun v => ?_⟩
    · rw [List.foldl_cons, hreferences, isTainted, hreference, isTainted, List.mem_cons]
      by_cases hx : r = x
      · cases hr : g.getReference? r <;> simp [hx]
      · simp [hx]
    · rw [List.foldl_cons, hvariables, getVariable?_delegate]
      rfl

/-- Closing a scope adds what waited there, if it is a `with` body. -/
theorem Closing.cameThroughWith_iff (h : Closing g g' t s outer) (r : ReferenceId) :
    g'.CameThroughWith r ↔
      g.CameThroughWith r ∨ g.kindOf? s = some .withBody ∧ r ∈ g.pendingOf s := by
  have hoffer (hkind : g.kindOf? s = some .withBody) (r : ReferenceId) :
      g'.offer? t r s = none := by
    rw [← h.frame.positions.kindOf?] at hkind
    obtain ⟨scope, hs, hscope⟩ := Option.map_eq_some_iff.1 hkind
    simp [offer?, hs, hscope]
  have hself (hkind : g.kindOf? s = some .withBody) : g'.throughOf s = g.pendingOf s := by
    rw [h.throughOf_self, List.filter_eq_self]
    exact fun r _ => decide_eq_true (hoffer hkind r)
  simp only [CameThroughWith, h.frame.positions.kindOf?]
  constructor
  · rintro ⟨x, hkind, hr⟩
    by_cases hx : x = s
    · subst hx
      exact .inr ⟨hkind, hself hkind ▸ hr⟩
    · exact .inl ⟨x, hkind, h.throughOf_of_ne hx ▸ hr⟩
  · rintro (⟨x, hkind, hr⟩ | ⟨hkind, hr⟩)
    · have hx : x ≠ s := by
        rintro rfl
        rw [h.settled.through_open x (List.mem_cons_self ..)] at hr
        cases hr
      exact ⟨x, hkind, (h.throughOf_of_ne hx).symm ▸ hr⟩
    · exact ⟨s, hkind, (hself hkind).symm ▸ hr⟩

/-- Scopes other than `with` bodies neither taint nor hide where references came through. -/
theorem Taints.of_closing (hclosing : Closing g g' t s outer)
    (hkind : g.kindOf? s ≠ some .withBody) (h : g'.Taints g.CameThroughWith) :
    g'.Taints g'.CameThroughWith :=
  h.congr fun r => by rw [hclosing.cameThroughWith_iff, or_iff_left fun hr => hkind hr.1]

omit [DecidableEq ν] in
theorem kind_ne_of_kindOf?_ne {kind : ScopeKind} (hkind : g.kindOf? s ≠ some kind) :
    ∀ scope, g.getScope? s = some scope → scope.kind ≠ kind := by
  rintro scope hs rfl
  exact hkind (by rw [kindOf?, hs, Option.map_some])

/-- Closing a scope keeps the picture. -/
theorem Taints.closeScope (h : g.Taints g.CameThroughWith)
    (hclosing : Closing g (g.closeScope t s) t s outer) :
    (g.closeScope t s).Taints (g.closeScope t s).CameThroughWith := by
  by_cases hkind : g.kindOf? s = some .withBody
  · obtain ⟨scope, hs, hscope⟩ := Option.map_eq_some_iff.1 hkind
    obtain ⟨hreferences, hvariables⟩ := foldl_taint_delegate scope.pending.toList
      (g.modifyScope s fun s => { s with pending := #[] }) s
    rw [← closeScope_of_withBody hs hscope t] at hreferences hvariables
    have hpending : g.pendingOf s = scope.pending.toList := by rw [pendingOf, listOf, hs]; rfl
    have hcame (r : ReferenceId) : (g.closeScope t s).CameThroughWith r ↔
        g.CameThroughWith r ∨ r ∈ scope.pending.toList := by
      rw [hclosing.cameThroughWith_iff, hpending, and_iff_right hkind]
    refine ⟨fun r => ?_, fun v variable' hvar => ?_⟩
    · have hsome (hr : r ∈ scope.pending.toList) : (g.getReference? r).isSome :=
        hclosing.settled.isSome_getReference? hclosing.wellFormed hclosing.lt_size
          (List.mem_cons_self ..) (hpending ▸ hr)
      rw [hreferences, hcame, ← h.isTainted_iff r, getReference?_modifyScope]
      exact or_congr .rfl (and_iff_left_of_imp hsome)
    · rw [hvariables, getVariable?_modifyScope] at hvar
      rw [h.tainted_iff v variable' hvar]
      refine exists_congr fun r => and_congr_right fun hr => ?_
      have hlinked : r ∈ g.linksOf v := by
        rw [linksOf, hvar]
        exact Array.mem_toList_iff.2 hr
      rw [hcame, or_iff_left fun hwaits => ?_]
      have hnone := ((hclosing.mem_pendingOf_iff r).1 (hpending ▸ hwaits)).1
      rw [(hclosing.settled.links v r).1 hlinked] at hnone
      cases hnone
  · exact .of_closing hclosing hkind
      ((Taints.steady _).closeScope t s (kind_ne_of_kindOf?_ne hkind) h)

end Close

section Grow

variable {g g' : ScopeGraph ν}

theorem cameThroughWith_congr (hkind : ∀ s, g'.kindOf? s = g.kindOf? s)
    (hthrough : ∀ s, g'.throughOf s = g.throughOf s) (r : ReferenceId) :
    g.CameThroughWith r ↔ g'.CameThroughWith r := by
  simp only [CameThroughWith, hkind, hthrough]

/-- Nothing comes through a new scope at once. -/
theorem cameThroughWith_openScope (kind : ScopeKind) (block : NodeId) (strict : Bool)
    (upper : Option ScopeId) (r : ReferenceId) :
    g.CameThroughWith r ↔ (g.openScope kind block strict upper).CameThroughWith r := by
  refine exists_congr fun s => ?_
  rw [throughOf_openScope]
  refine and_congr_left fun hr => ?_
  rw [kindOf?_openScope]
  rintro rfl
  rw [throughOf, listOf_nextScope] at hr
  cases hr

/-- A new scope has let nothing through. -/
theorem Taints.openScope (h : g.Taints g.CameThroughWith) (kind : ScopeKind) (block : NodeId)
    (strict : Bool) (upper : Option ScopeId) :
    (g.openScope kind block strict upper).Taints
      (g.openScope kind block strict upper).CameThroughWith := by
  refine congr (h.of_bound (fun r => ?_) fun v variable' hvar => .inr ?_)
    (cameThroughWith_openScope kind block strict upper)
  · rw [isTainted, getReference?_openScope, isTainted]
  · rw [getVariable?_openScope] at hvar
    exact ⟨variable', hvar, rfl⟩

/-- A new reference has come out of nothing. -/
theorem Taints.addReference (h : g.Taints g.CameThroughWith) {reference : Reference ν}
    (hfresh : reference.tainted = false) :
    (g.addReference reference).Taints (g.addReference reference).CameThroughWith := by
  refine congr (h.of_bound (fun r => ?_) fun v variable' hvar => .inr ⟨variable', hvar, rfl⟩)
    (cameThroughWith_congr (samePositions_addReference g reference).kindOf?
      throughOf_addReference)
  rw [isTainted, getReference?_addReference, isTainted]
  split
  · next hr =>
    rw [hr, getReference?_nextReference]
    exact hfresh
  · rfl

variable [DecidableEq ν]

/-- During the walk, what has come through a `with` body is tainted, and nothing else. -/
theorem walkInvariant_taints (t : Tree) :
    WalkInvariant t fun (_ : List (Located ν)) c => c.graph.Taints c.graph.CameThroughWith where
  enter _ hc _ block strict := hc.openScope _ block strict _
  close h hc hs := hc.closeScope
    (closing_closeScope h.walked.toWellFormed h.settled h.lt_size hs h.opened_eq.symm)
  declare {_ c _} _ hc place name d := by
    have hrevises := revises_declare c.graph (c.place place) name d
    exact (hc.declare _ name d).congr (cameThroughWith_congr hrevises.samePositions.kindOf?
      (hrevises.listOf_eq (by exact fun _ _ => rfl)))
  refer _ hc o := hc.addReference (by exact rfl)
  this {_ c _} _ hc := by
    have hframe : Frame [] c.graph (c.graph.modifyScope (c.graph.variableScope c.current)
        fun s => { s with thisFound := true }) :=
      .modifyScope (by exact fun _ => rfl) (by exact fun _ => rfl) (by exact fun _ => rfl) _
    exact Taints.congr ⟨hc.isTainted_iff, hc.tainted_iff⟩
      (cameThroughWith_congr hframe.positions.kindOf?
        (listOf_modifyScope (by exact fun _ => rfl) _))
  misplacedImport _ hc _ := hc

end Grow

end ScopeGraph

namespace Tree

variable {t : Tree} {o : LanguageOptions} {u v w x : Visit}

theorem visits_subset (hx : x ∈ t.visits u) (hv : v ∈ t.visits x) : v ∈ t.visits u :=
  visits_down (motive := (· ∈ t.visits u)) hx (fun _ _ hu _ hw => inner_subset_visits hu hw) v hv

theorem exists_blocks_of_mem_inner (hu : u ∈ t.visits (t.rootVisit o)) (hw : w ∈ t.inner u) :
    ∃ k, w.blocks = List.replicate k u.node ++ u.blocks := by
  obtain ⟨kind, hkind⟩ := exists_kind?_of_mem_visits hu
  rcases List.mem_append.1 hw with hw | hw
  · obtain ⟨x, -, rfl⟩ := List.mem_map.1 hw
    exact ⟨_, outside_eq hkind⟩
  · obtain ⟨x, -, rfl⟩ := List.mem_map.1 hw
    exact ⟨_, inside_eq hkind hu⟩

/-- Around a node below `x` there are blocks from `x` downwards, then those around `x`. -/
theorem exists_outside_eq_append (hx : x ∈ t.visits (t.rootVisit o)) (hv : v ∈ t.visits x) :
    ∃ below, t.outside v = below ++ x.blocks ∧ ∀ b ∈ below, b.index ≤ x.node.index := by
  have hle {u : Visit} (hu : u ∈ t.visits x) {k : Nat} {below : List NodeId}
      (hbelow : ∀ b ∈ below, b.index ≤ x.node.index) :
      ∀ b ∈ List.replicate k u.node ++ below, b.index ≤ x.node.index := by
    intro b hb
    rcases List.mem_append.1 hb with hb | hb
    · rw [List.eq_of_mem_replicate hb]
      exact index_le_of_below (below_of_mem_visits hu)
    · exact hbelow b hb
  have hblocks : ∀ v ∈ t.visits x, ∃ below,
      v.blocks = below ++ x.blocks ∧ ∀ b ∈ below, b.index ≤ x.node.index := by
    refine visits_down ⟨[], rfl, nofun⟩ fun u hu ⟨below, hblocks, hbelow⟩ w hw => ?_
    obtain ⟨k, hk⟩ := exists_blocks_of_mem_inner (visits_subset hx hu) hw
    exact ⟨_, by rw [hk, hblocks, List.append_assoc], hle hu hbelow⟩
  obtain ⟨below, hbelow, hindex⟩ := hblocks v hv
  obtain ⟨kind, hkind⟩ := exists_kind?_of_mem_visits (visits_subset hx hv)
  exact ⟨_, by rw [outside_eq hkind, hbelow, List.append_assoc], hle hv hindex⟩

/-- The scope of a `with` statement opens right behind the object. -/
theorem blocks_of_withStatement (hu : u ∈ t.visits (t.rootVisit o)) {object body : NodeId}
    (hkind : t.kind? u.node = some (.withStatement object body)) {r : Region}
    (hr : r ∈ t.regionsAt u) (hwith : r.kind = .withBody) :
    r.blocks = u.node :: t.outside u ∧
      ∃ x ∈ t.inner u, x.node = object ∧ x.blocks = t.outside u := by
  have hopened : t.openedScopes (.withStatement object body) u.role ≠ [] := by
    intro hnil
    rw [regionsAt_eq hu, openedAt, hkind, Option.elim_some, hnil] at hr
    cases hr
  have hown := ownScopes_ne_nil_of_head rfl hopened
  have hscopes : t.ownScopes (.withStatement object body) u.role =
      t.scopesOfKind (.withStatement object body) := ownScopes_eq_of_head rfl hown
  have hlast : (t.openedAt u).getLast? = some .withBody := by
    rw [openedAt_eq hkind, hscopes]
    exact List.getLast?_concat
  have heq : r = ⟨.withBody, t.inside u⟩ :=
    eq_of_mem_regionsFrom (t.nodup_openedAt u) (regionsAt_eq hu ▸ hr)
      (regionsAt_eq hu ▸ innermost_mem_regionsAt hu hlast) hwith
  obtain ⟨c, hearly⟩ := early_layoutOfKind (t := t) u.node (.withStatement object body) u.role
  rw [if_neg hown, ← layout_of_kind? hkind] at hearly
  refine ⟨?_, ⟨object, .visited c, t.outside u⟩, List.mem_append_left _ ?_, rfl, rfl⟩
  · rw [heq, inside_eq_outside hkind hu, hscopes]
    rfl
  · rw [hearly]
    exact List.mem_singleton_self _

end Tree

/-- The reference comes out of the `with` body `w` before it meets its variable. -/
def ScopeGraph.TaintedBy (g : ScopeGraph ν) (reference : Reference ν) (w : ScopeId) : Prop :=
  ∃ below above, g.chain reference.origin = below ++ w :: above ∧
    g.kindOf? w = some .withBody ∧ ∀ v, reference.resolved = some v →
      ∃ variable', g.getVariable? v = some variable' ∧ variable'.scope ∈ above

/-- A reference has come through a `with` body if the body is on its way, before its variable. -/
theorem ScopeGraph.Analyzed.cameThroughWith_iff [DecidableEq ν] {g : ScopeGraph ν} {t : Tree}
    {arguments : ν} (hg : g.Analyzed t arguments) {r : ReferenceId} {reference : Reference ν}
    (hr : g.getReference? r = some reference) :
    g.CameThroughWith r ↔ ∃ w, g.TaintedBy reference w := by
  refine exists_congr fun w => ?_
  rw [hg.mem_throughOf_iff]
  have hnodup := hg.nodup_chain (hg.origin_lt hr)
  constructor
  · rintro ⟨hkind, reference', below, above, hr', hchain, hbound⟩
    obtain rfl : reference = reference' := Option.some.inj (hr.symm.trans hr')
    refine ⟨below, above, hchain, hkind, fun v hv => ?_⟩
    obtain ⟨variable', hvar, hmem, -⟩ := hg.exists_variable_of_resolved hr hv
    rw [hchain, List.append_cons, List.mem_append] at hmem
    exact ⟨variable', hvar, hmem.resolve_left (hbound v variable' hv hvar)⟩
  · rintro ⟨below, above, hchain, hkind, hbound⟩
    refine ⟨hkind, reference, below, above, hr, hchain, fun v variable' hv hvar => ?_⟩
    obtain ⟨variable'', hvar', habove⟩ := hbound v hv
    obtain rfl : variable' = variable'' := Option.some.inj (hvar.symm.trans hvar')
    rw [hchain, List.append_cons] at hnodup
    exact fun hmem => (List.nodup_append.1 hnodup).2.2 _ hmem _ habove rfl

section Analyze

variable {names names' : NameTable} {t : Tree} {o : LanguageOptions} {envs : Environments}
  {g : ScopeGraph Name}

theorem taints_of_analyze (h : analyze names t o envs = (names', .ok g)) :
    g.Taints g.CameThroughWith := by
  have hempty : ({} : ScopeGraph Name).Taints ({} : ScopeGraph Name).CameThroughWith := by
    refine ⟨fun r => ⟨fun hr => (nomatch hr), ?_⟩, fun v variable' hvar => (nomatch hvar)⟩
    rintro ⟨s, hkind, -⟩
    cases hkind
  obtain ⟨-, source, -, hwalking, -, hsource, rfl⟩ :=
    (ScopeGraph.walkInvariant_taints (ν := Name) t).of_analyze (fun _ => hempty.openScope ..) h
  have hclosing := ScopeGraph.closing_finalize hwalking.walked hwalking.settled hwalking.lt_size
    ((GlobalSettings.ofFile o envs t.comments).mapNames names'.handle)
  have hkind : source.kindOf? .global ≠ some .withBody := by
    intro hkind
    obtain ⟨scope, hs, hscope⟩ := Option.map_eq_some_iff.1 hkind
    rw [(hwalking.walked.kind_global hs).2 rfl] at hscope
    cases hscope
  have hsteady := ScopeGraph.Taints.steady (ν := Name) source.CameThroughWith
  exact .of_closing hclosing hkind
    (hsteady.finalize _ (hsteady.closeScope t _ (ScopeGraph.kind_ne_of_kindOf?_ne hkind) hsource))

/-- What stands in the object of a `with` statement does not stand in the scope of the statement:
the walk comes there with only the blocks around the statement open. -/
theorem not_mem_chain_of_object (h : analyze names t o envs = (names', .ok g))
    (hplaces : t.UniquePlaces) {id : ReferenceId} {r : Reference Name}
    (hr : g.getReference? id = some r) {w : ScopeId} (hw : g.kindOf? w = some .withBody)
    {n object body : NodeId} (hn : g.blockOf w = some n)
    (hkind : t.kind? n = some (.withStatement object body))
    (hobject : t.Below r.identifier object) : w ∉ g.chain r.origin := by
  intro hmem
  have hg := charted_of_analyze h hplaces
  have hsize := hg.size_of_mem_chain (hg.origin_lt hr) hmem
  obtain ⟨v, hv, occurrence, hstems⟩ := exists_visit_of_reference h hr
  obtain ⟨u, hu, hregion⟩ :=
    hg.exists_visit (ScopeGraph.region?_eq_some_iff (r := ⟨.withBody, g.blocksOf w⟩).2 ⟨hw, rfl⟩)
  have hnode : u.node = n := by
    have hhead : (g.blocksOf w).head? = some u.node :=
      head?_blocks_of_mem (Tree.regionsAt_eq hu ▸ hregion)
    rw [hg.head?_blocksOf hsize, hn] at hhead
    exact (Option.some.inj hhead).symm
  subst hnode
  obtain ⟨hblocks, x, hx, rfl, hxblocks⟩ := Tree.blocks_of_withStatement hu hkind hregion rfl
  replace hblocks : g.blocksOf w = u.node :: t.outside u := hblocks
  obtain ⟨v', hv', hidentifier⟩ := Tree.exists_mem_visits hobject
  have hxroot := Tree.inner_subset_visits hu hx
  obtain rfl : v' = v := Tree.eq_of_mem_visits hplaces (Tree.visits_subset hxroot hv') hv
    (hidentifier.trans hstems.identifier)
  obtain ⟨below, houtside, hbelow⟩ := Tree.exists_outside_eq_append hxroot hv'
  obtain ⟨inner, hchain⟩ := hg.exists_chain_eq_append (hg.origin_lt hr) hmem
  have heq : g.blocksOf r.origin = inner.filterMap g.blockOf ++ g.blocksOf w := by
    rw [ScopeGraph.blocksOf, hchain, List.filterMap_append, ScopeGraph.blocksOf]
  rw [hstems.blocks, houtside, hblocks, hxblocks, List.append_cons, List.append_cancel_right_eq]
    at heq
  have hle := hbelow u.node (by rw [heq]; simp)
  have hlt := Tree.index_lt_of_mem_inner hx
  omega

/-- Tainting is exact: a reference is tainted if and only if it comes out of a `with` body before
it meets its variable, and a variable if one of its references is. So neither a variable inside of
a `with` body nor the place in the object makes a reference tainted by the statement. -/
theorem tainted_of_analyze (h : analyze names t o envs = (names', .ok g)) :
    (∀ id r, g.getReference? id = some r → (r.tainted = true ↔ ∃ w, g.TaintedBy r w)) ∧
    (∀ v variable', g.getVariable? v = some variable' → (variable'.tainted = true ↔
      ∃ id ∈ variable'.references, ∃ r, g.getReference? id = some r ∧ r.tainted = true)) ∧
    (∀ id r v variable' w, g.getReference? id = some r → r.resolved = some v →
      g.getVariable? v = some variable' → w ∈ g.chain variable'.scope → ¬g.TaintedBy r w) ∧
    (t.UniquePlaces → ∀ id r w n object body, g.getReference? id = some r →
      g.blockOf w = some n → t.kind? n = some (.withStatement object body) →
      t.Below r.identifier object → ¬g.TaintedBy r w) := by
  have hg := analyzed_of_analyze h
  have htaints := taints_of_analyze h
  have hreference {id : ReferenceId} {r : Reference Name} (hr : g.getReference? id = some r) :
      r.tainted = true ↔ g.CameThroughWith id := by
    rw [← htaints.isTainted_iff, ScopeGraph.isTainted, hr, Option.any_some]
  refine ⟨fun id r hr => ?_, fun v variable' hvar => ?_, ?_, ?_⟩
  · rw [hreference hr, hg.cameThroughWith_iff hr]
  · rw [htaints.tainted_iff v variable' hvar]
    refine exists_congr fun id => and_congr_right fun hid => ?_
    obtain ⟨r, hr, -⟩ := (hg.mem_references_iff hvar).1 hid
    simp [hr, hreference hr]
  · rintro id r v variable' w hr hv hvar hw ⟨below, above, hchain, -, hbound⟩
    obtain ⟨variable'', hvar', habove⟩ := hbound v hv
    obtain rfl : variable' = variable'' := Option.some.inj (hvar.symm.trans hvar')
    have horigin := hg.origin_lt hr
    have hmem : variable'.scope ∈ g.chain r.origin := by
      rw [hchain]
      exact List.mem_append_right _ (List.mem_cons_of_mem _ habove)
    have hbelow := (hg.mem_chain_iff_of_split horigin hchain hmem).1 hw
    have hnodup := hg.nodup_chain horigin
    rw [hchain, List.append_cons] at hnodup
    exact (List.nodup_append.1 hnodup).2.2 _ hbelow _ habove rfl
  · rintro hplaces id r w n object body hr hn hkind hobject ⟨below, above, hchain, hw, -⟩
    refine not_mem_chain_of_object h hplaces hr hw hn hkind hobject ?_
    rw [hchain]
    exact List.mem_append_right _ (List.mem_cons_self ..)

/-- `var v; with (o) { let w; w; v }` -/
def shadowInWith : Build NodeId := do
  let declaration ← .declare .varDecl "v" none
  let object ← .identifier "o"
  let inner ← .declare .letDecl "w" none
  let w ← .alloc (.expressionStatement (← .identifier "w") none)
  let v ← .alloc (.expressionStatement (← .identifier "v") none)
  let statement ← .alloc (.withStatement object (← .block [inner, w, v]))
  .alloc (.program [declaration, statement] .script)

/-- Of the three references only that to `v` comes out of the `with` body unbound. -/
theorem tainted_shadowInWith : ∃ t names g object w v variable', Build.tree shadowInWith = .ok t ∧
    analyze {} t {} {} = (names, .ok g) ∧ t.UniquePlaces ∧
    g.getReference? ⟨0⟩ = some object ∧ (¬∃ s, g.TaintedBy object s) ∧
    g.getReference? ⟨1⟩ = some w ∧ (¬∃ s, g.TaintedBy w s) ∧
    g.getReference? ⟨2⟩ = some v ∧ (∃ s, g.TaintedBy v s) ∧
    g.getVariable? ⟨0⟩ = some variable' ∧ variable'.tainted = true := by
  obtain ⟨t, names, g, ht, h, hplaces, hobject, hw, hv, hvariable⟩ :=
    exists_analysis shadowInWith {} {} (fun t _ g => t.UniquePlaces ∧
      (g.getReference? ⟨0⟩).map (·.tainted) = some false ∧
      (g.getReference? ⟨1⟩).map (·.tainted) = some false ∧
      (g.getReference? ⟨2⟩).map (·.tainted) = some true ∧
      (g.getVariable? ⟨0⟩).map (·.references) = some #[⟨2⟩]) (by decide +kernel)
  obtain ⟨hreferences, hvariables, -⟩ := tainted_of_analyze h
  have huntainted {id : ReferenceId} {r : Reference Name} (hr : g.getReference? id = some r)
      (hfalse : r.tainted = false) : ¬∃ s, g.TaintedBy r s := by
    rw [← hreferences id r hr, hfalse]
    exact Bool.false_ne_true
  obtain ⟨object, hobject, hfalse⟩ := Option.map_eq_some_iff.1 hobject
  obtain ⟨w, hw, hfalse'⟩ := Option.map_eq_some_iff.1 hw
  obtain ⟨v, hv, htrue⟩ := Option.map_eq_some_iff.1 hv
  obtain ⟨variable', hvar, hlist⟩ := Option.map_eq_some_iff.1 hvariable
  refine ⟨t, names, g, object, w, v, variable', ht, h, hplaces, hobject,
    huntainted hobject hfalse, hw, huntainted hw hfalse', hv, (hreferences _ v hv).1 htrue, hvar,
    (hvariables _ variable' hvar).2 ⟨⟨2⟩, ?_, v, hv, htrue⟩⟩
  rw [hlist]
  exact Array.mem_singleton_self _

end Analyze

end LexicalScope
