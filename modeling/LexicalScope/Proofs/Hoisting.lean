import LexicalScope.Proofs.Declared
import LexicalScope.Proofs.Enclosing
import LexicalScope.Proofs.Shape
import LexicalScope.Proofs.Sources

/-!
Where declarations land. Parameters, the names bound by a catch clause and imports belong to the
scope of their owner, a `var` to the variable scope around its declaration, and other names to the
scope that the declaration stands in. The walk goes by its current scope, the statement by the way
up from the declaration in a finished tree.
-/
namespace LexicalScope

variable {ν : Type}

namespace NodeKind

def isDeclaration : NodeKind → Bool
  | variableDeclaration .. | functionDeclaration _ | classDeclaration _ => true
  | _ => false

/-- The children that stand where a statement does, or in the head of a loop. -/
def statements : NodeKind → List NodeId
  | program body _ | blockStatement body | staticBlock body => body
  | functionDeclaration f | functionExpression f => f.body.toList
  | arrowFunctionExpression f => [f.body]
  | switchCase _ consequent => consequent
  | ifStatement _ consequent alternate => consequent :: alternate.toList
  | labeledStatement _ body | withStatement _ body => [body]
  | exportNamedDeclaration declaration _ _ => declaration.toList
  | exportDefaultDeclaration declaration => [declaration]
  | kind@(whileStatement ..) | kind@(doWhileStatement ..) | kind@(forStatement ..)
  | kind@(forInStatement ..) | kind@(forOfStatement ..) => kind.children
  | _ => []

theorem isProgram_of_isDeclaration {kind : NodeKind} (h : kind.isDeclaration) :
    kind.isProgram = false := by
  cases kind <;> first | rfl | cases h

end NodeKind

namespace Tree

variable {t : Tree} {o : LanguageOptions} {u v w : Visit} {p c : NodeId} {kind k : NodeKind}

/-- Declarations stand where statements do, and imports only in the body of the program. -/
def DeclaresInPlace (t : Tree) : Prop :=
  ∀ i < t.size, ∀ kind ∈ t.kind? ⟨i⟩, ∀ c ∈ kind.children, ∀ k ∈ t.kind? c,
    (k.isDeclaration → c ∈ kind.statements) ∧ (k.isImportDeclaration → t.root = ⟨i⟩)

instance (t : Tree) : Decidable t.DeclaresInPlace :=
  inferInstanceAs (Decidable (∀ i < t.size, ∀ kind ∈ t.kind? ⟨i⟩, ∀ c ∈ kind.children,
    ∀ k ∈ t.kind? c, (k.isDeclaration → c ∈ kind.statements) ∧
      (k.isImportDeclaration → t.root = ⟨i⟩)))

namespace DeclaresInPlace

variable (h : t.DeclaresInPlace)
include h

theorem of_child (hkind : t.kind? p = some kind) (hc : c ∈ kind.children)
    (hk : t.kind? c = some k) :
    (k.isDeclaration → c ∈ kind.statements) ∧ (k.isImportDeclaration → t.root = p) :=
  h p.index (kind?_eq_some_iff.1 hkind).1 kind hkind c hc k hk

/-- No declaration is the initializer of a field, so the scopes around it are open when the walk
comes to it. -/
theorem outside_eq_blocks (hv : v ∈ t.visits (t.rootVisit o)) (hk : t.kind? v.node = some k)
    (hdeclaration : k.isDeclaration) : t.outside v = v.blocks := by
  suffices hfirst : firstScopes v.role = [] by
    rw [outside_eq hk, hfirst]
    rfl
  rcases mem_visits_cases hv with rfl | ⟨u, -, hu⟩
  · rfl
  · obtain ⟨kind, hkind, hchild⟩ := mem_childrenOf_iff.1 (node_mem_childrenOf hu)
    have hstatement := (h.of_child hkind hchild hk).1 hdeclaration
    have hslot := slot_of_mem_inner hu
    rw [layout_of_kind? hkind] at hslot
    cases hrole : v.role with
    | fieldValue c =>
      rw [hrole] at hslot
      cases stems_of_slot hslot with
      | plain _ hfirst => cases hfirst
      | fieldValue hfield =>
        rw [hfield] at hstatement
        cases hstatement
      | owned howner => cases howner
    | _ => rfl

end DeclaresInPlace

theorem ne_rootVisit (hroot : t.rootKind.isProgram) (hkind : t.kind? v.node = some kind)
    (hprogram : kind.isProgram = false) : v ≠ t.rootVisit o := by
  rintro rfl
  obtain ⟨_, rfl⟩ := kind?_eq_some_iff.1 hkind
  exact Bool.false_ne_true (hprogram.symm.trans hroot)

section Program

variable {body : List NodeId} {sourceType : SourceType}
  (hprogram : t.rootKind = .program body sourceType)
include hprogram

/-- The statements of a program are visited inside all its scopes. -/
theorem inner_rootVisit (o : LanguageOptions) :
    t.inner (t.rootVisit o) = body.map fun n =>
      ⟨n, .visited { isModule := o.isModuleFor sourceType }, t.inside (t.rootVisit o)⟩ := by
  have hlayout : t.layout (t.rootVisit o).role (t.rootVisit o).node = {
      own := t.enterProgram o sourceType
      late := Role.visitAll { isModule := o.isModuleFor sourceType } body } :=
    layout_of_kind? (kind?_root_of_program hprogram) _
  simp [inner, hlayout, Role.visitAll]

/-- The innermost scope of a module is its module scope. -/
theorem getLast?_openedAt_rootVisit (hmodule : o.isModuleFor sourceType) :
    (t.openedAt (t.rootVisit o)).getLast? = some .module := by
  rw [openedAt_eq (v := t.rootVisit o) (kind?_root_of_program hprogram)]
  show (programScopes o sourceType).getLast? = some .module
  rw [programScopes, if_pos hmodule, ← List.cons_append, List.getLast?_concat]

end Program

/-- An import that is visited in a module stands right inside the module scope. -/
theorem DeclaresInPlace.module_of_import (h : t.DeclaresInPlace) (hplaces : t.UniquePlaces)
    (hroot : t.rootKind.isProgram) (hw : w ∈ t.visits (t.rootVisit o))
    {specifiers : List NodeId} {source : NodeId} {importKind : ImportKind}
    (hkind : t.kind? w.node = some (.importDeclaration specifiers source importKind))
    (hmodule : ∀ c, w.role = .visited c → c.isModule) :
    t.outside w = t.inside (t.rootVisit o) ∧
      (t.openedAt (t.rootVisit o)).getLast? = some .module := by
  obtain ⟨u, hu, hinner⟩ := (mem_visits_cases hw).resolve_left (ne_rootVisit hroot hkind rfl)
  obtain ⟨kind, hparent, hchild⟩ := mem_childrenOf_iff.1 (node_mem_childrenOf hinner)
  obtain rfl : u = t.rootVisit o := eq_of_mem_visits hplaces hu (t.mem_visits_self _)
    ((h.of_child hparent hchild hkind).2 rfl).symm
  cases hprogram : t.rootKind with
  | program body sourceType =>
    rw [inner_rootVisit hprogram] at hinner
    obtain ⟨n, -, rfl⟩ := List.mem_map.1 hinner
    exact ⟨outside_eq hkind, getLast?_openedAt_rootVisit hprogram (hmodule _ rfl)⟩
  | _ =>
    rw [hprogram] at hroot
    cases hroot

/-- `v` is met in a role that belongs to the node visited in `u`. -/
structure OwnedBy (t : Tree) (v u : Visit) : Prop where
  owner : v.role.owner? = some u.node
  blocks : t.inside u = v.blocks
  innermost : ∀ kind, t.kind? u.node = some kind →
    (t.ownScopes kind u.role).getLast? = v.role.scopeKind?
  declaration : v.role.scopeKind? = none → ∃ variableKind declarations,
    t.kind? u.node = some (.variableDeclaration variableKind declarations)

/-- An owner opens its scopes around the roles that it owns. -/
theorem blocks_of_owner (hu : u ∈ t.visits (t.rootVisit o)) (hv : v ∈ t.inner u)
    (howner : v.role.owner?.isSome) : t.inside u = v.blocks := by
  rcases List.mem_append.1 hv with hv | hv
  · obtain ⟨kind, hkind⟩ := exists_kind?_of_mem_visits hu
    obtain ⟨x, hx, rfl⟩ := List.mem_map.1 hv
    obtain ⟨c, hearly⟩ := early_layoutOfKind (t := t) u.node kind u.role
    rw [layout_of_kind? hkind, hearly] at hx
    split at hx
    · cases hx
    · obtain ⟨m, -, rfl⟩ := List.mem_map.1 hx
      cases howner
  · obtain ⟨x, -, rfl⟩ := List.mem_map.1 hv
    rfl

/-- The owner of a role is met on the way down, and what it opens is open around the role. What has
an owner further up opens nothing itself, so the scopes of the owner stay innermost. -/
theorem exists_owner : ∀ v ∈ t.visits (t.rootVisit o), v.role.owner?.isSome →
    ∃ u ∈ t.visits (t.rootVisit o), t.OwnedBy v u := by
  refine visits_down (fun hroot => nomatch hroot) fun u hu ih v hv howner => ?_
  have hslot := slot_of_mem_inner hv
  have hblocks := blocks_of_owner hu hv howner
  have hopened := blocks_of_openedAt_eq_nil (v := v) hu
  obtain ⟨kind, hkind⟩ := exists_kind?_of_mem_visits hu
  rw [layout_of_kind? hkind] at hslot
  obtain ⟨n, role, blocks⟩ := v
  cases stems_of_slot hslot with
  | plain hnone =>
    rw [hnone] at howner
    cases howner
  | fieldValue => cases howner
  | passed hsame hscope hfirst hown =>
    have hblocks : blocks = u.blocks :=
      hopened (by rw [openedAt_eq hkind, hfirst, hown]; rfl) hv
    obtain ⟨u', hu', howned⟩ := ih (hsame ▸ howner)
    exact ⟨u', hu', hsame.trans howned.owner, howned.blocks.trans hblocks.symm,
      fun k hk => (howned.innermost k hk).trans hscope.symm,
      fun hnone => howned.declaration (hscope.symm.trans hnone)⟩
  | owned hself hlast hdeclaration =>
    refine ⟨u, hu, hself, hblocks, fun k hk => ?_, fun hnone => ?_⟩
    · obtain rfl := Option.some.inj (hkind.symm.trans hk)
      exact hlast
    · obtain ⟨variableKind, declarations, rfl⟩ := hdeclaration hnone
      exact ⟨variableKind, declarations, hkind⟩

end Tree

namespace ScopeGraph

def anchoredAs (g : ScopeGraph ν) (n : NodeId) (kind : ScopeKind) : List ScopeId :=
  (g.scopesOf n).filter (g.kindOf? · = some kind)

/-- Whether `s` is the scope that the definition `d` belongs to. The name of a function expression
or a class stands inside of it, that of a class declaration also around it. -/
def Receives (g : ScopeGraph ν) (t : Tree) (s : ScopeId) (d : Definition) : Prop :=
  match d.kind with
  | .variableName => ∃ declaration, d.parent = some declaration ∧
    (d.variableKind = some .varDecl → g.variableScope (g.enclosing t declaration) = s) ∧
    (d.variableKind ≠ some .varDecl → g.scopeAround? t declaration = some s)
  | .parameter => g.anchoredAs d.node .function = [s]
  | .catchClause => g.anchoredAs d.node .catchClause = [s]
  | .importBinding => g.anchoredAs t.root .module = [s]
  | .functionName =>
    match t.kind? d.node with
    | some (.functionExpression _) => g.anchoredAs d.node .functionName = [s]
    | some (.functionDeclaration _) => g.scopeAround? t d.node = some s
    | _ => False
  | .className =>
    g.anchoredAs d.node .classBody = [s] ∨
      ∃ parts, t.kind? d.node = some (.classDeclaration parts) ∧
        g.scopeAround? t d.node = some s
  | .implicitGlobal => s = .global

section Anchored

variable [DecidableEq ν] {g : ScopeGraph ν} {t : Tree} {o : LanguageOptions}
  (hg : g.Charted t o) (hplaces : t.UniquePlaces) {s : ScopeId} {r : Region} {w : Visit}
include hg

/-- Scopes with the same blocks are the same. -/
theorem Charted.eq_of_blocksOf {x : ScopeId} (hs : s.index < g.scopes.size)
    (hx : x.index < g.scopes.size) (hblocks : g.blocksOf s = g.blocksOf x) : s = x := by
  obtain ⟨kind, hkind⟩ := exists_region? hs
  obtain ⟨kind', hkind'⟩ := exists_region? hx
  exact hg.unique hkind hkind' hblocks

/-- A scope is anchored at a node once. -/
theorem Charted.nodup_scopesOf (n : NodeId) : (g.scopesOf n).Nodup := by
  rw [hg.nested.scopesOf_eq]
  refine ((g.pairwise_scopeIds.imp ?_).filter _)
  rintro x y hlt rfl
  exact Nat.lt_irrefl _ hlt

include hplaces

/-- A scope with the blocks of a region is the one of its kind at the node that opens it. -/
theorem Charted.anchoredAs_eq (hw : w ∈ t.visits (t.rootVisit o)) (hr : r ∈ t.regionsAt w)
    (hs : s.index < g.scopes.size) (hblocks : g.blocksOf s = r.blocks) :
    g.anchoredAs w.node r.kind = [s] := by
  obtain ⟨kind, hkind⟩ := exists_region? hs
  obtain ⟨x, hx⟩ := hg.exists_scope hw hr
  obtain rfl : s = x := hg.unique hkind hx hblocks
  refine List.perm_singleton.1 ((List.perm_ext_iff_of_nodup ((hg.nodup_scopesOf _).filter _)
    (List.nodup_singleton s)).2 fun y => ?_)
  rw [List.mem_filter, decide_eq_true_eq, List.mem_singleton, hg.mem_scopesOf_visit hplaces hw]
  constructor
  · rintro ⟨⟨r', hr', hy⟩, hykind⟩
    rw [(region?_eq_some_iff.1 hy).1, Option.some.injEq] at hykind
    rw [Tree.regionsAt_eq hw] at hr hr'
    rw [eq_of_mem_regionsFrom (t.nodup_openedAt w) hr' hr hykind] at hy
    exact hg.unique hy hx rfl
  · rintro rfl
    exact ⟨⟨r, hr, hx⟩, (region?_eq_some_iff.1 hx).1⟩

/-- Around a visited node stands the scope with the same blocks. -/
theorem Charted.scopeAround?_of_blocksOf (hlinked : t.Linked) (hroot : t.rootKind.isProgram)
    (hw : w ∈ t.visits (t.rootVisit o)) (hne : w ≠ t.rootVisit o) (hs : s.index < g.scopes.size)
    (hblocks : g.blocksOf s = w.blocks) :
    g.scopeAround? t w.node = some s ∧
      g.variableScope (g.enclosing t w.node) = g.variableScope s := by
  obtain ⟨x, haround, hx, hsize, hvariable⟩ :=
    hg.scopeAround?_eq hlinked hplaces hroot w hw hne
  obtain rfl := hg.eq_of_blocksOf hs hsize (hblocks.trans hx.symm)
  exact ⟨haround, hvariable⟩

end Anchored

section Receives

variable [DecidableEq ν] {g : ScopeGraph ν} {t : Tree} {o : LanguageOptions}
  (hg : g.Charted t o) (hplaces : t.UniquePlaces) (hroot : t.rootKind.isProgram)
  {s : ScopeId} {w : Visit}
include hg hplaces

/-- A name declared in a scope that its owner opens. -/
theorem Charted.anchoredAs_owner {u : Visit} (hu : u ∈ t.visits (t.rootVisit o))
    (howned : t.OwnedBy w u) {kind : ScopeKind} (hkind : w.role.scopeKind? = some kind)
    (hs : s.index < g.scopes.size) (hblocks : g.blocksOf s = w.blocks) :
    g.anchoredAs u.node kind = [s] := by
  obtain ⟨nodeKind, hnode⟩ := Tree.exists_kind?_of_mem_visits hu
  have hlast : (t.openedAt u).getLast? = some kind := by
    rw [Tree.openedAt_eq hnode, List.getLast?_append, howned.innermost nodeKind hnode, hkind]
    rfl
  exact hg.anchoredAs_eq hplaces hu (Tree.innermost_mem_regionsAt hu hlast) hs
    (hblocks.trans howned.blocks.symm)

variable (hw : w ∈ t.visits (t.rootVisit o)) (hplace : t.DeclaresInPlace)
include hroot hw hplace

/-- Imports stand in the module scope. -/
theorem Charted.anchoredAs_import {specifiers : List NodeId} {source : NodeId}
    {importKind : ImportKind}
    (hkind : t.kind? w.node = some (.importDeclaration specifiers source importKind))
    (hmodule : ∀ c, w.role = .visited c → c.isModule) (hs : s.index < g.scopes.size)
    (hblocks : g.blocksOf s = t.outside w) : g.anchoredAs t.root .module = [s] := by
  obtain ⟨houtside, hlast⟩ := hplace.module_of_import hplaces hroot hw hkind hmodule
  have hu := t.mem_visits_self (t.rootVisit o)
  exact hg.anchoredAs_eq hplaces hu (Tree.innermost_mem_regionsAt hu hlast) hs
    (hblocks.trans houtside)

variable (hlinked : t.Linked)
include hlinked

/-- The scope around a declaration is the one that the walk has open there. -/
theorem Charted.scopeAround?_of_outside {kind : NodeKind} (hkind : t.kind? w.node = some kind)
    (hdeclaration : kind.isDeclaration) (hs : s.index < g.scopes.size)
    (hblocks : g.blocksOf s = t.outside w) :
    g.scopeAround? t w.node = some s ∧
      g.variableScope (g.enclosing t w.node) = g.variableScope s := by
  have hne := Tree.ne_rootVisit (o := o) hroot hkind
    (NodeKind.isProgram_of_isDeclaration hdeclaration)
  rw [hplace.outside_eq_blocks hw hkind hdeclaration] at hblocks
  exact hg.scopeAround?_of_blocksOf hplaces hlinked hroot hw hne hs hblocks

/-- A target is received by the scope that the walk declares it in. A declaration opens no scope
itself, so its targets stand in the scope that it stands in. -/
theorem Charted.receives_target {use : PatternUse} {x : PatternTarget} {place : Place}
    {d : Definition} (howner : w.role.owner? = use.owner?)
    (hscope : w.role.scopeKind? = use.scopeKind?)
    (hdeclaration : use.declaration? x = some (place, d)) (h : g.Reaches w.blocks place s) :
    g.Receives t s d := by
  obtain ⟨y, hy, hblocks, hs⟩ := h
  have hvisit (n : NodeId) (hn : use.owner? = some n) :
      ∃ u ∈ t.visits (t.rootVisit o), u.node = n ∧ t.OwnedBy w u := by
    obtain ⟨u, hu, howned⟩ := Tree.exists_owner w hw (by rw [howner, hn]; rfl)
    exact ⟨u, hu, Option.some.inj (howned.owner.symm.trans (howner.trans hn)), howned⟩
  cases use with
  | parameter | catchParameter =>
    obtain ⟨u, hu, rfl, howned⟩ := hvisit _ rfl
    obtain ⟨rfl, rfl⟩ := Prod.mk.inj (Option.some.inj hdeclaration)
    obtain rfl : y = s := hs
    exact hg.anchoredAs_owner hplaces hu howned hscope hy hblocks
  | declarator declaration node kind index init right =>
    obtain ⟨u, hu, rfl, howned⟩ := hvisit declaration rfl
    obtain ⟨variableKind, declarations, hnode⟩ := howned.declaration hscope
    have hinside : t.inside u = t.outside u := by
      have hlast := howned.innermost _ hnode
      rw [hscope, PatternUse.scopeKind?, List.getLast?_eq_none_iff] at hlast
      rw [Tree.inside_eq_outside hnode hu, hlast]
      rfl
    obtain ⟨haround, hvariable⟩ := hg.scopeAround?_of_outside hplaces hroot hu hplace hlinked
      hnode rfl hy (hblocks.trans (howned.blocks.symm.trans hinside))
    obtain ⟨rfl, rfl⟩ := Prod.mk.inj (Option.some.inj hdeclaration)
    refine ⟨u.node, rfl, fun hvar => ?_, fun hvar => ?_⟩
    · rw [if_pos (Option.some.inj hvar)] at hs
      exact hvariable.trans hs
    · rw [if_neg fun heq => hvar (congrArg some heq)] at hs
      obtain rfl : y = s := hs
      exact haround
  | assignment => cases hdeclaration

/-- What a visited node declares lands in the scope that the definition belongs to. -/
theorem Charted.receives {blocks : List NodeId} {place : Place} {d : Definition}
    (hdeclares : t.Declares w blocks place d) (h : g.Reaches blocks place s) :
    g.Receives t s d := by
  cases hdeclares with
  | function hkind =>
    obtain ⟨y, hy, hblocks, rfl⟩ := h
    unfold Receives
    simp only [hkind]
    exact (hg.scopeAround?_of_outside hplaces hroot hw hplace hlinked hkind rfl hy hblocks).1
  | functionExpression hkind hregion =>
    obtain ⟨y, hy, hblocks, rfl⟩ := h
    unfold Receives
    simp only [hkind]
    exact hg.anchoredAs_eq hplaces hw hregion hy hblocks
  | classAround hkind =>
    obtain ⟨y, hy, hblocks, rfl⟩ := h
    exact .inr ⟨_, hkind,
      (hg.scopeAround?_of_outside hplaces hroot hw hplace hlinked hkind rfl hy hblocks).1⟩
  | classInside hregion =>
    obtain ⟨y, hy, hblocks, rfl⟩ := h
    exact .inl (hg.anchoredAs_eq hplaces hw hregion hy hblocks)
  | «import» hkind hmodule hdefinition =>
    obtain ⟨y, hy, hblocks, rfl⟩ := h
    unfold Receives
    simp only [hdefinition]
    exact hg.anchoredAs_import hplaces hroot hw hplace hkind hmodule hy hblocks
  | target hrole hdeclaration =>
    exact hg.receives_target hplaces hroot hw hplace hlinked (by rw [hrole]; rfl)
      (by rw [hrole]; rfl) hdeclaration h

end Receives

end ScopeGraph

section Analyze

variable {names names' : NameTable} {t : Tree} {o : LanguageOptions} {envs : Environments}
  {g : ScopeGraph Name}

/-- In a finished tree with all declarations in place, every definition of a variable of an
analysed file belongs to the scope of the variable. -/
theorem receives_of_mem_definitions (h : analyze names t o envs = (names', .ok g))
    (hlinked : t.Linked) (hplaces : t.UniquePlaces) (hplace : t.DeclaresInPlace)
    {id : VariableId} {v : Variable Name} (hv : g.getVariable? id = some v) {d : Definition}
    (hd : d ∈ v.definitions) : g.Receives t v.scope d := by
  have hg := charted_of_analyze h hplaces
  rcases exists_declaration h hv hd with ⟨w, hw, blocks, place, name, hmark, hreaches⟩ | ⟨hkind, hs⟩
  · exact hg.receives hplaces (isProgram_of_analyze h) hw hplace hlinked
      (Tree.declares_of_mem_marks hw hmark) hreaches
  · unfold ScopeGraph.Receives
    rw [hkind]
    exact hs

/-- `function f(p) { { var x; let y; } }` -/
def varInBlock : Build NodeId := do
  let p ← .identifier "p"
  let x ← .declare .varDecl "x" none
  let y ← .declare .letDecl "y" none
  let function ← .functionDeclaration (some "f") [p] [← .block [x, y]]
  .alloc (.program [function] .script)

/-- Here `x` belongs to the scope of the function. -/
theorem receives_varInBlock : ∃ t names g v d, Build.tree varInBlock = .ok t ∧
    analyze {} t {} {} = (names, .ok g) ∧ t.Linked ∧ t.UniquePlaces ∧ t.DeclaresInPlace ∧
      g.getVariable? ⟨3⟩ = some v ∧ d = .ofDeclarator ⟨1⟩ ⟨2⟩ ⟨3⟩ 0 .varDecl ∧
      d ∈ v.definitions ∧ v.scope = ⟨1⟩ ∧ g.Receives t v.scope d := by
  let d : Definition := .ofDeclarator ⟨1⟩ ⟨2⟩ ⟨3⟩ 0 .varDecl
  obtain ⟨t, names, g, ht, h, hplaces, hplace, hvariable⟩ := exists_analysis varInBlock {} {}
    (fun t _ g => t.UniquePlaces ∧ t.DeclaresInPlace ∧
      (g.getVariable? ⟨3⟩).map (fun v => (v.definitions, v.scope)) = some (#[d], ⟨1⟩))
    (by decide +kernel)
  obtain ⟨v, hv, heq⟩ := Option.map_eq_some_iff.1 hvariable
  obtain ⟨hdefinitions, hscope⟩ := Prod.mk.inj heq
  have hd : d ∈ v.definitions := hdefinitions ▸ Array.mem_singleton_self d
  have hlinked := Tree.linked_of_tree ht
  exact ⟨t, names, g, v, d, ht, h, hlinked, hplaces, hplace, hv, rfl, hd, hscope,
    receives_of_mem_definitions h hlinked hplaces hplace hv hd⟩

/-- `switch (L: let x) {}` -/
def declaringHead : Build NodeId := do
  let statement ← .labeled "L" (← .declare .letDecl "x" none)
  let switch ← .alloc (.switchStatement statement [])
  .alloc (.program [switch] .script)

/-- The head of a `switch` stands outside of its scope, and so do the names declared there. -/
theorem scope_ne_enclosing_declaringHead : ∃ t names g v d declaration,
    Build.tree declaringHead = .ok t ∧ analyze {} t {} {} = (names, .ok g) ∧ t.Linked ∧
      t.UniquePlaces ∧ t.DeclaresInPlace ∧ g.getVariable? ⟨0⟩ = some v ∧ d ∈ v.definitions ∧
      d.kind = .variableName ∧ d.variableKind = some .letDecl ∧ d.parent = some declaration ∧
      v.scope ≠ g.enclosing t declaration := by
  let d : Definition := .ofDeclarator ⟨0⟩ ⟨1⟩ ⟨2⟩ 0 .letDecl
  obtain ⟨t, names, g, ht, h, hplaces, hplace, hvariable, henclosing⟩ :=
    exists_analysis declaringHead {} {}
      (fun t _ g => t.UniquePlaces ∧ t.DeclaresInPlace ∧
        (g.getVariable? ⟨0⟩).map (fun v => (v.definitions, v.scope)) = some (#[d], ⟨0⟩) ∧
        g.enclosing t ⟨2⟩ = ⟨1⟩)
      (by decide +kernel)
  obtain ⟨v, hv, heq⟩ := Option.map_eq_some_iff.1 hvariable
  obtain ⟨hdefinitions, hscope⟩ := Prod.mk.inj heq
  have hd : d ∈ v.definitions := hdefinitions ▸ Array.mem_singleton_self d
  refine ⟨t, names, g, v, d, ⟨2⟩, ht, h, Tree.linked_of_tree ht, hplaces, hplace, hv, hd, rfl, rfl,
    rfl, ?_⟩
  rw [hscope, henclosing]
  decide

end Analyze

end LexicalScope
