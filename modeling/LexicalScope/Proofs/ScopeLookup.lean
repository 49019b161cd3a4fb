import LexicalScope.Proofs.Hoisting
import LexicalScope.Proofs.Sessions
import LexicalScope.Proofs.Standing

/-!
The scope that a query finds for an identifier. The walk makes a reference in the scope that is
innermost at that moment, while the query goes up from the identifier to the nearest node at which
a scope is anchored. Both come to the same scope, unless the identifier stands in the head of a
`switch` or `with` statement: the query does not tell the head from the body.
-/
namespace LexicalScope

/-- Where the look-up and the search succeed together, the look-up is the search first. -/
theorem findSome?_eq_bind_find? {α β : Type} {f : α → Option β} {p : α → Bool} {l : List α}
    (h : ∀ x ∈ l, (f x).isSome = p x) : l.findSome? f = (l.find? p).bind f := by
  induction l with
  | nil => rfl
  | cons x l ih =>
    rw [List.findSome?_cons, List.find?_cons, ih fun y hy => h y (List.mem_cons_of_mem _ hy),
      ← h x (List.mem_cons_self ..)]
    cases hx : f x <;> simp [hx]

def NodeKind.isPrimary : NodeKind → Bool
  | identifier _ | thisExpression => true
  | _ => false

namespace Tree

/-- They open no scope but that of a field which they initialize. -/
theorem ownScopes_of_isPrimary (t : Tree) {kind : NodeKind} (hprimary : kind.isPrimary)
    (role : Role) : t.ownScopes kind role = [] := by
  cases kind with
  | identifier | thisExpression => cases role <;> rfl
  | _ => cases hprimary

theorem isProgram_of_isPrimary {t : Tree} {n : NodeId} {kind : NodeKind}
    (hkind : t.kind? n = some kind) (hprimary : kind.isPrimary) : t.isProgram n = false := by
  rw [isProgram, hkind, Option.any_some]
  cases kind with
  | identifier | thisExpression => rfl
  | _ => cases hprimary

end Tree

namespace ScopeGraph

variable {ν : Type}

/-- The nearest node at or above `n` at which a scope is anchored. -/
def anchorAt? (g : ScopeGraph ν) (t : Tree) (n : NodeId) : Option NodeId :=
  (n :: t.ancestors n).find? fun a => !(g.scopesOf a).isEmpty

/-- `s` is the scope that the `switch` or `with` statement `a` opens behind its head. -/
def IsBodyOf (g : ScopeGraph ν) (t : Tree) (a : NodeId) (s : ScopeId) : Prop :=
  match t.kind? a with
  | some (.switchStatement ..) => g.anchoredAs a .switchBody = [s]
  | some (.withStatement ..) => g.anchoredAs a .withBody = [s]
  | _ => False

theorem scopesOf_ne_nil_of_anchorAt? {g : ScopeGraph ν} {t : Tree} {n a : NodeId}
    (h : g.anchorAt? t n = some a) : g.scopesOf a ≠ [] := by
  have hempty := List.find?_some (p := fun a => !(g.scopesOf a).isEmpty) h
  intro hnil
  rw [hnil] at hempty
  cases hempty

section Names

variable {μ : Type} [DecidableEq ν] [DecidableEq μ] (f : ν → μ) (g : ScopeGraph ν) (t : Tree)

theorem upper?_mapNames (s : ScopeId) : (g.mapNames f).upper? s = g.upper? s := by
  rw [upper?, getScope?_mapNames, Option.bind_map]
  rfl

theorem isBodyOf_mapNames (a : NodeId) (s : ScopeId) :
    (g.mapNames f).IsBodyOf t a s ↔ g.IsBodyOf t a s := by
  have hkind (x : ScopeId) : (g.mapNames f).kindOf? x = g.kindOf? x := by
    rw [kindOf?, getScope?_mapNames, Option.map_map]
    rfl
  have hanchored (kind : ScopeKind) : (g.mapNames f).anchoredAs a kind = g.anchoredAs a kind := by
    unfold anchoredAs
    simp only [hkind]
    rfl
  unfold IsBodyOf
  simp only [hanchored]

end Names

namespace Charted

variable [DecidableEq ν] {g : ScopeGraph ν} {t : Tree} {o : LanguageOptions}
  (hg : g.Charted t o) {v u : Visit}
include hg

/-- Where scopes are anchored, the walk has come and opened them. -/
theorem exists_visit_of_anchored {a : NodeId} (ha : g.scopesOf a ≠ []) :
    ∃ u ∈ t.visits (t.rootVisit o), u.node = a ∧
      ∃ kind, (t.openedAt u).getLast? = some kind := by
  obtain ⟨s, hs⟩ := List.exists_mem_of_ne_nil _ ha
  obtain ⟨r, hr, hhead⟩ := hg.mem_scopesOf_iff.1 hs
  obtain ⟨u, hu, hmem⟩ := hg.exists_visit hr
  rw [Tree.regionsAt_eq hu] at hmem
  refine ⟨u, hu, Option.some.inj ((head?_blocks_of_mem hmem).symm.trans hhead), ?_⟩
  cases hlast : (t.openedAt u).getLast? with
  | some kind => exact ⟨kind, rfl⟩
  | none =>
    rw [List.getLast?_eq_none_iff.1 hlast] at hmem
    cases hmem

variable (hplaces : t.UniquePlaces)
include hplaces

/-- A node at which a scope is anchored has an innermost one. -/
theorem isSome_acquire (a : NodeId) :
    (g.acquire a true).isSome = !(g.scopesOf a).isEmpty := by
  by_cases hscopes : g.scopesOf a = []
  · simp [acquire, hscopes]
  · obtain ⟨u, hu, rfl, kind, hlast⟩ := hg.exists_visit_of_anchored hscopes
    obtain ⟨e, -, hacquire, -⟩ := hg.acquire_eq hplaces hu hlast
    rw [hacquire, List.isEmpty_eq_false_iff.2 hscopes]
    rfl

/-- For all nodes but programs, the query finds the innermost scope at the nearest anchor. -/
theorem scopeAt_eq {n : NodeId} (hprogram : t.isProgram n = false) :
    g.scopeAt t n = ((g.anchorAt? t n).bind (g.acquire · true)).getD .global := by
  rw [scopeAt, hprogram, Bool.not_false, anchorAt?,
    findSome?_eq_bind_find? fun a _ => hg.isSome_acquire hplaces a]

section Primary

variable (hv : v ∈ t.visits (t.rootVisit o)) {kind : NodeKind} (hkind : t.kind? v.node = some kind)
  (hprimary : kind.isPrimary) {origin : ScopeId} (horigin : origin.index < g.scopes.size)
  (hblocks : g.blocksOf origin = t.outside v)
include hv hkind hprimary horigin hblocks

/-- An identifier or `this` that initializes a field is the anchor itself. -/
theorem scopeAt_of_opened {k : ScopeKind} (hlast : (t.openedAt v).getLast? = some k) :
    g.anchorAt? t v.node = some v.node ∧ g.scopeAt t v.node = origin := by
  obtain ⟨e, hanchored, hacquire, he⟩ := hg.acquire_eq hplaces hv hlast
  have hinside : t.inside v = t.outside v := by
    rw [Tree.inside_eq_outside hkind hv, t.ownScopes_of_isPrimary hprimary]
    rfl
  have heq : e = origin := hg.eq_of_blocksOf (lt_of_region? he) horigin
    ((region?_eq_some_iff.1 he).2.trans (hinside.trans hblocks.symm))
  have hanchor : g.anchorAt? t v.node = some v.node := by
    rw [anchorAt?, List.find?_cons, List.isEmpty_eq_false_iff.2 (List.ne_nil_of_mem hanchored)]
    rfl
  refine ⟨hanchor, ?_⟩
  rw [hg.scopeAt_eq hplaces (Tree.isProgram_of_isPrimary hkind hprimary), hanchor,
    Option.bind_some, hacquire, Option.getD_some, heq]

/-- Any other one stands in the scope that encloses it. -/
theorem scopeAt_of_openedAt_eq_nil (hlinked : t.Linked) (hroot : t.rootKind.isProgram)
    (hopened : t.openedAt v = []) :
    g.anchorAt? t v.node = g.anchor? t v.node ∧ g.scopeAt t v.node = g.enclosing t v.node ∧
      g.scopeAround? t v.node = some origin ∧
      g.variableScope (g.enclosing t v.node) = g.variableScope origin := by
  have hprogram := Tree.isProgram_of_isPrimary hkind hprimary
  have hne : v ≠ t.rootVisit o := by
    refine Tree.ne_rootVisit hroot hkind ?_
    cases kind with
    | identifier | thisExpression => rfl
    | _ => cases hprimary
  have hanchor : g.anchorAt? t v.node = g.anchor? t v.node := by
    rw [anchorAt?, List.find?_cons, hg.scopesOf_eq_nil hplaces hv hopened]
    rfl
  have houtside : t.outside v = v.blocks := by
    have hfirst := (List.append_eq_nil_iff.1 ((Tree.openedAt_eq hkind).symm.trans hopened)).1
    rw [Tree.outside_eq hkind, hfirst]
    rfl
  refine ⟨hanchor, ?_, hg.scopeAround?_of_blocksOf hplaces hlinked hroot hv hne horigin
    (hblocks.trans houtside)⟩
  rw [hg.scopeAt_eq hplaces hprogram, hanchor, enclosing]

/-- What the query finds for an identifier or `this`, compared with the scope `origin` that is
innermost where the walk comes to it. -/
theorem scopeAt_primary (hlinked : t.Linked) (hroot : t.rootKind.isProgram) :
    if (g.anchorAt? t v.node).any (t.inHead · v.node) then
      g.upper? (g.scopeAt t v.node) = some origin
    else g.scopeAt t v.node = origin := by
  cases hlast : (t.openedAt v).getLast? with
  | some k =>
    obtain ⟨hanchor, hfound⟩ := hg.scopeAt_of_opened hplaces hv hkind hprimary horigin hblocks hlast
    have hhead : t.inHead v.node v.node = false := by
      rw [Tree.inHead, hkind]
      cases kind with
      | identifier | thisExpression => rfl
      | _ => cases hprimary
    rw [hanchor, Option.any_some, hhead]
    exact hfound
  | none =>
    obtain ⟨hanchor, hfound, haround, -⟩ := hg.scopeAt_of_openedAt_eq_nil hplaces hv hkind hprimary
      horigin hblocks hlinked hroot (List.getLast?_eq_none_iff.1 hlast)
    rw [hanchor, hfound]
    rw [scopeAround?] at haround
    split at haround
    · next hhead => rwa [if_pos hhead]
    · next hhead => rw [if_neg hhead]; exact Option.some.inj haround

theorem exists_scopeAt (hlinked : t.Linked) (hroot : t.rootKind.isProgram) :
    ∃ scope, g.getScope? (g.scopeAt t v.node) = some scope := by
  have hfound := hg.scopeAt_primary hplaces hv hkind hprimary horigin hblocks hlinked hroot
  split at hfound
  · obtain ⟨scope, hscope, -⟩ := Option.bind_eq_some_iff.1 hfound
    exact ⟨scope, hscope⟩
  · rw [hfound]
    exact getScope?_of_lt horigin

/-- Both have the same variable scope, even in a head. -/
theorem variableScope_scopeAt (hlinked : t.Linked) (hroot : t.rootKind.isProgram) :
    g.variableScope (g.scopeAt t v.node) = g.variableScope origin := by
  cases hlast : (t.openedAt v).getLast? with
  | some k =>
    rw [(hg.scopeAt_of_opened hplaces hv hkind hprimary horigin hblocks hlast).2]
  | none =>
    obtain ⟨-, hfound, -, hvariable⟩ := hg.scopeAt_of_openedAt_eq_nil hplaces hv hkind hprimary
      horigin hblocks hlinked hroot (List.getLast?_eq_none_iff.1 hlast)
    rw [hfound, hvariable]

end Primary

/-- In a head, the query finds the scope of the statement: the one that the statement opens behind
its head is its innermost. -/
theorem isBodyOf_scopeAt {n a : NodeId} (hprogram : t.isProgram n = false)
    (ha : g.anchorAt? t n = some a) (hhead : t.inHead a n) :
    g.IsBodyOf t a (g.scopeAt t n) := by
  obtain ⟨u, hu, rfl, k, hlast⟩ := hg.exists_visit_of_anchored (scopesOf_ne_nil_of_anchorAt? ha)
  obtain ⟨e, -, hacquire, he⟩ := hg.acquire_eq hplaces hu hlast
  have hanchored : g.anchoredAs u.node k = [e] :=
    hg.anchoredAs_eq hplaces hu (Tree.innermost_mem_regionsAt hu hlast) (lt_of_region? he)
      (region?_eq_some_iff.1 he).2
  obtain ⟨kind, c, hkind, hc, -⟩ := Tree.inHead_iff.1 hhead
  have hown : t.ownScopes kind u.role ≠ [] := by
    refine Tree.ownScopes_ne_nil_of_head hc fun hnil => ?_
    rw [Tree.openedAt, hkind, Option.elim_some, hnil] at hlast
    cases hlast
  have hscopes := Tree.ownScopes_eq_of_head hc hown
  rw [Tree.openedAt_eq hkind, hscopes] at hlast
  rw [hg.scopeAt_eq hplaces hprogram, ha, Option.bind_some, hacquire, Option.getD_some, IsBodyOf,
    hkind]
  cases kind with
  | switchStatement | withStatement =>
    obtain rfl := Option.some.inj (List.getLast?_concat.symm.trans hlast)
    exact hanchored
  | _ => cases hc

end Charted

end ScopeGraph

/-- The query for `n` finds the scope `origin`, or the one of a statement right inside of it, in
whose head `n` stands. -/
structure ScopeGraph.Finds {ν : Type} (g : ScopeGraph ν) (t : Tree) (n : NodeId)
    (origin : ScopeId) : Prop where
  contains : t.contains n
  exists_scope : ∃ scope, g.getScope? (g.scopeAt t n) = some scope
  eq_origin : (∀ a, g.anchorAt? t n = some a → t.inHead a n = false) → g.scopeAt t n = origin
  inHead : ∀ a, g.anchorAt? t n = some a → t.inHead a n →
    g.IsBodyOf t a (g.scopeAt t n) ∧ g.upper? (g.scopeAt t n) = some origin

/-- A renaming leaves the scope that a query finds. -/
theorem ScopeGraph.Finds.mapNames {ν μ : Type} [DecidableEq ν] [DecidableEq μ] {g : ScopeGraph ν}
    {t : Tree} {n : NodeId} {origin : ScopeId} (h : g.Finds t n origin) (f : ν → μ) :
    (g.mapNames f).Finds t n origin := by
  have hfound := g.scopeAt_mapNames f t n
  refine ⟨h.contains, ?_, fun hother => hfound.trans (h.eq_origin hother), fun a ha hhead => ?_⟩
  · obtain ⟨scope, hscope⟩ := h.exists_scope
    exact ⟨scope.mapNames f, by rw [hfound, getScope?_mapNames, hscope, Option.map_some]⟩
  · rw [hfound, isBodyOf_mapNames, upper?_mapNames]
    exact h.inHead a ha hhead

/-- What the query finds for the identifier of a reference. -/
theorem finds_of_analyze {names names' : NameTable} {t : Tree} {o : LanguageOptions}
    {envs : Environments} {g : ScopeGraph Name} (h : analyze names t o envs = (names', .ok g))
    (hlinked : t.Linked) (hplaces : t.UniquePlaces) {id : ReferenceId} {r : Reference Name}
    (hr : g.getReference? id = some r) : g.Finds t r.identifier r.origin := by
  have hg := charted_of_analyze h hplaces
  obtain ⟨v, hv, occurrence, hstems⟩ := exists_visit_of_reference h hr
  have horigin := hg.origin_lt hr
  have hprogram : t.isProgram v.node = false := Tree.isProgram_of_isPrimary hstems.kind rfl
  have hfound := hg.scopeAt_primary hplaces hv hstems.kind rfl horigin hstems.blocks hlinked
    (isProgram_of_analyze h)
  rw [hstems.identifier]
  refine ⟨?_, ?_, fun hother => ?_, fun a ha hhead => ⟨?_, ?_⟩⟩
  · rw [Tree.contains, decide_eq_true_eq]
    exact (Tree.kind?_eq_some_iff.1 hstems.kind).1
  · exact hg.exists_scopeAt hplaces hv hstems.kind rfl horigin hstems.blocks hlinked
      (isProgram_of_analyze h)
  · rwa [if_neg] at hfound
    intro hany
    obtain ⟨a, ha, hhead⟩ := (Option.any_eq_true _ _).1 hany
    rw [hother a ha] at hhead
    cases hhead
  · exact hg.isBodyOf_scopeAt hplaces hprogram ha hhead
  · rwa [if_pos ((Option.any_eq_true _ _).2 ⟨a, ha, hhead⟩)] at hfound

/-- Asked for the identifier of a reference, a session finds the scope of the reference. Only if
the identifier stands in the head of the `switch` or `with` statement that is its nearest anchor,
it finds the scope of the statement, which lies right inside the scope of the reference. -/
theorem scopeAt_run {s : Session} (hs : s.active = none) {actions : List Session.Action}
    (htables : ∀ l, .load l ∈ actions → l.file.table.index < s.names.tables.size)
    {l : Session.Load} (hl : Session.lastLoad actions = some l) {g : ScopeGraph String}
    (hreport : l.report = .ok g) (hlinked : l.file.tree.Linked)
    (hplaces : l.file.tree.UniquePlaces) {id : ReferenceId} {r : Reference String}
    (hr : g.getReference? id = some r) :
    ∃ found scope, ((s.run actions).ask (.scopeAt r.identifier)).1 = .ok (some scope) ∧
      g.getScope? found = some scope ∧
      ((∀ a, g.anchorAt? l.file.tree r.identifier = some a →
        l.file.tree.inHead a r.identifier = false) → found = r.origin) ∧
      ∀ a, g.anchorAt? l.file.tree r.identifier = some a → l.file.tree.inHead a r.identifier →
        g.IsBodyOf l.file.tree a found ∧ scope.upper = some r.origin := by
  have hanswer := (Session.reflects_run hs htables).ask_fst hl (.scopeAt r.identifier)
  have hfinds : g.Finds l.file.tree r.identifier r.origin := by
    obtain ⟨names, names', g', hanalyze, rfl⟩ := Session.Load.exists_analysis_of_report hreport
    rw [ScopeGraph.getReference?_mapNames] at hr
    obtain ⟨r', hr', rfl⟩ := Option.map_eq_some_iff.1 hr
    exact (finds_of_analyze hanalyze hlinked hplaces hr').mapNames _
  obtain ⟨scope, hscope⟩ := hfinds.exists_scope
  refine ⟨_, scope, ?_, hscope, hfinds.eq_origin, fun a ha hhead => ?_⟩
  · rw [hanswer, Session.Load.answer, hreport]
    show Session.Request.answerAt l.file.tree r.identifier _ = _
    rw [Session.Request.answerAt, if_pos hfinds.contains, hscope]
  · obtain ⟨hbody, hupper⟩ := hfinds.inHead a ha hhead
    rw [ScopeGraph.upper?, hscope] at hupper
    exact ⟨hbody, hupper⟩

/-- `with (o) { x }` -/
def withObject : Build NodeId := do
  let object ← .identifier "o"
  let x ← .alloc (.expressionStatement (← .identifier "x") none)
  let statement ← .alloc (.withStatement object (← .block [x]))
  .alloc (.program [statement] .script)

/-- For the object, which stands in the global scope, a session finds the scope of the statement;
for `x` it finds the scope of the block, in which `x` stands. -/
theorem scopeAt_withObject : ∃ t, ∃ l : Session.Load, ∃ g objectScope xScope,
    Build.tree withObject = .ok t ∧ l = ⟨⟨t, ⟨0⟩⟩, {}, {}⟩ ∧ l.report = .ok g ∧
    ((({ names := ⟨#[{}]⟩ } : Session).run [.load l]).ask (.scopeAt ⟨0⟩)).1 =
      .ok (some objectScope) ∧
    objectScope.upper = some .global ∧
    ((({ names := ⟨#[{}]⟩ } : Session).run [.load l]).ask (.scopeAt ⟨1⟩)).1 = .ok (some xScope) ∧
    g.getScope? ⟨2⟩ = some xScope := by
  obtain ⟨t, g, ht, hreport, hplaces, ho, hx, hhead, hinner⟩ := Session.Load.exists_report
    withObject {} {} (fun t g => t.UniquePlaces ∧
      (g.getReference? ⟨0⟩).map (fun r => (r.identifier, r.origin)) = some (⟨0⟩, .global) ∧
      (g.getReference? ⟨1⟩).map (fun r => (r.identifier, r.origin)) = some (⟨1⟩, ⟨2⟩) ∧
      (g.anchorAt? t ⟨0⟩).any (t.inHead · ⟨0⟩) ∧
      (g.anchorAt? t ⟨1⟩).all (!t.inHead · ⟨1⟩))
    (by decide +kernel)
  let l : Session.Load := ⟨⟨t, ⟨0⟩⟩, {}, {}⟩
  let s : Session := { names := ⟨#[{}]⟩ }
  have htables := Session.table_lt_of_mem_load (l := l) Nat.zero_lt_one
  have hlast : Session.lastLoad [.load l] = some l := rfl
  have hlinked := Tree.linked_of_tree ht
  obtain ⟨object, hobject, hplace⟩ := Option.map_eq_some_iff.1 ho
  obtain ⟨x, hx, hplace'⟩ := Option.map_eq_some_iff.1 hx
  obtain ⟨hidentifier, horigin⟩ := Prod.mk.inj hplace
  obtain ⟨hidentifier', horigin'⟩ := Prod.mk.inj hplace'
  obtain ⟨_, objectScope, hanswer, -, -, hbody⟩ := scopeAt_run (s := s) rfl htables hlast hreport
    hlinked hplaces hobject
  obtain ⟨found, xScope, hanswer', hfound, hother, -⟩ := scopeAt_run (s := s) rfl htables
    hlast hreport hlinked hplaces hx
  rw [hidentifier] at hanswer hbody
  rw [hidentifier'] at hanswer' hother
  obtain ⟨a, ha, hin⟩ := (Option.any_eq_true _ _).1 hhead
  refine ⟨t, l, g, objectScope, xScope, ht, rfl, hreport, hanswer, ?_, hanswer', ?_⟩
  · rw [(hbody a ha hin).2, horigin]
  · rw [← hfound, hother fun a ha => ?_, horigin']
    rw [Option.all_eq_true] at hinner
    simpa using hinner a ha

end LexicalScope
