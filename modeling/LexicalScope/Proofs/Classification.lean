import LexicalScope.Proofs.Occurrences
import LexicalScope.Proofs.Shape

/-!
What each identifier of a program stands for. Its place in the tree decides its role, and the role
decides its references: a mere name has none, the target of a compound assignment or an update is
read and written at once, a target in a pattern is written, and all others are read.
-/
namespace LexicalScope

namespace NodeKind

def isPlain : NodeKind → Bool
  | variableDeclaration .. | property _ => false
  | kind => !(kind.isProgram || kind.isName || kind.isTarget || kind.isDeclarator ||
    kind.isImportSpecifier || kind.isExportSpecifier)

def isPatternPart : NodeKind → Bool
  | identifier _ | objectPattern _ | arrayPattern _ | restElement _ => true
  | assignmentPattern .. | property _ => true
  | _ => false

theorem isPlain_eq_false {kind : NodeKind} (h : kind.isProgram ∨ kind.isName ∨ kind.isTarget ∨
    kind.isDeclarator ∨ kind.isImportSpecifier ∨ kind.isExportSpecifier) :
    kind.isPlain = false := by
  unfold isPlain
  split
  case h_3 => simp only [Bool.not_eq_false', Bool.or_eq_true, or_assoc, h]
  all_goals rfl

theorem mem_children_of_mem_names {kind : NodeKind} {x : NodeId} (h : x ∈ kind.names) :
    x ∈ kind.children := by
  cases kind <;> simp only [names, children] at h ⊢ <;> try split at h
  all_goals simp_all

end NodeKind

namespace Tree

open NodeKind (isTarget isProperty)

variable {t : Tree} {o : LanguageOptions} {n c p x : NodeId} {kind : NodeKind} {role r : Role}

/-- The walk over a program comes to a node in some role. -/
def HasRole (t : Tree) (o : LanguageOptions) (n : NodeId) (role : Role) : Prop :=
  ∃ v ∈ t.visits (t.rootVisit o), v.node = n ∧ v.role = role

theorem exists_role (h : t.Below n t.root) (o : LanguageOptions) : ∃ role, t.HasRole o n role := by
  obtain ⟨v, hv, hn⟩ := exists_mem_visits (v := t.rootVisit o) h
  exact ⟨v.role, v, hv, hn, rfl⟩

namespace HasRole

/-- The role in which the walk comes to a node suits the node. -/
theorem suits (h : t.HasRole o n role) (hshape : t.ESTreeShaped) (hroot : t.rootKind.isProgram)
    (hkind : t.kind? n = some kind) : t.Suits n kind role := by
  obtain ⟨v, hv, rfl, rfl⟩ := h
  obtain ⟨kind', hkind', hsuits⟩ := isCast_of_mem_visits hshape hroot hv
  obtain rfl := Option.some.inj (hkind.symm.trans hkind')
  exact hsuits

/-- The children of a node have the roles that its layout gives to them. -/
theorem slot (h : t.HasRole o n role) (hkind : t.kind? n = some kind)
    (hc : (c, r) ∈ (t.layoutOfKind n kind role).slots) : t.HasRole o c r := by
  obtain ⟨v, hv, rfl, rfl⟩ := h
  rw [← layout_of_kind? hkind] at hc
  obtain ⟨w, hw, hnode, hrole⟩ := exists_mem_inner_of_slot hc
  exact ⟨w, inner_subset_visits hv hw, hnode, hrole⟩

end HasRole

/-- The parent of a node in the tree stands in the tree. -/
theorem below_of_mem_childrenOf (hplaces : t.UniquePlaces) (hx : t.Below x t.root)
    (hne : x ≠ t.root) (hp : x ∈ t.childrenOf p) : t.Below p t.root := by
  rcases hx.cases_head with heq | ⟨q, hq, hbelow⟩
  · exact absurd heq hne
  · rwa [hplaces.parent_unique hp hq]

/-- Plain nodes are visited. -/
theorem exists_visitedLayout (hsuits : t.Suits n kind role) (hplain : kind.isPlain) :
    ∃ c, (t.layoutOfKind n kind role).slots = (t.visitedLayout c n kind).slots := by
  have hnot := mt NodeKind.isPlain_eq_false (Bool.not_eq_false _ ▸ hplain)
  simp only [not_or] at hnot
  cases role with
  | visited c | fieldValue c => exact ⟨c, rfl⟩
  | functionBody c =>
    refine ⟨c, ?_⟩
    cases kind <;> rfl
  | program o => exact absurd hsuits hnot.1
  | skipped =>
    rcases hsuits with ⟨h, -⟩ | h | ⟨h, -⟩
    · exact absurd h hnot.2.1
    · exact absurd h hnot.2.2.2.2.1
    · exact absurd h hnot.2.2.2.2.2
  | updated writeExpr =>
    have hname : kind.isName := by
      cases kind <;> first | rfl | exact absurd hsuits.1 Bool.false_ne_true
    exact absurd hname hnot.2.1
  | target c use root s =>
    rcases hsuits.2 with h | ⟨p, rfl, -⟩
    · exact absurd h hnot.2.2.1
    · exact absurd hplain Bool.false_ne_true
  | declarator c declaration variableKind index right =>
    exact absurd hsuits.1 hnot.2.2.2.1
  | loopHead c right =>
    obtain ⟨⟨variableKind, declarations, rfl⟩, -⟩ := hsuits
    exact absurd hplain Bool.false_ne_true

/-- Wherever a node stands, the names that it bears are skipped. -/
theorem skipped_mem_slots (hsuits : t.Suits n kind role) (hx : x ∈ kind.names) :
    (x, .skipped) ∈ (t.layoutOfKind n kind role).slots := by
  have hplain (hplain : kind.isPlain)
      (hmem : ∀ c, (x, .skipped) ∈ (t.visitedLayout c n kind).slots) :
      (x, .skipped) ∈ (t.layoutOfKind n kind role).slots := by
    obtain ⟨c, hc⟩ := exists_visitedLayout hsuits hplain
    exact hc ▸ hmem c
  cases kind with
  | methodDefinition m =>
    refine hplain rfl fun c => ?_
    cases hcomputed : m.computed <;>
      simp_all [NodeKind.names, visitedLayout, Layout.slots, Role.key]
  | propertyDefinition p =>
    refine hplain rfl fun c => ?_
    cases hcomputed : p.computed <;>
      simp_all [NodeKind.names, visitedLayout, Layout.slots, Role.key]
  | labeledStatement label body =>
    refine hplain rfl fun c => ?_
    simp_all [NodeKind.names, visitedLayout, Layout.slots]
  | breakStatement | continueStatement | metaProperty =>
    exact hplain rfl fun c => List.mem_map_of_mem hx
  | exportAllDeclaration exported source =>
    exact hplain rfl fun c => List.mem_map_of_mem (List.mem_append_left _ hx)
  | functionDeclaration f | functionExpression f =>
    refine hplain rfl fun c => List.mem_append_right [] ?_
    exact List.mem_append_left _ (List.mem_append_left _ (List.mem_map_of_mem hx))
  | classDeclaration parts | classExpression parts =>
    refine hplain rfl fun c => List.mem_append_right [] ?_
    exact List.mem_append_left _ (List.mem_map_of_mem hx)
  | property p =>
    have hcomputed : p.computed = false := by
      cases hcomputed : p.computed <;> simp_all [NodeKind.names]
    have hx : x = p.key := by simpa [NodeKind.names, hcomputed] using hx
    cases role <;>
      simp_all [Suits, layoutOfKind, visitedLayout, targetLayout, Layout.slots, Role.key,
        NodeKind.isProgram, NodeKind.isName, NodeKind.isImportSpecifier,
        NodeKind.isExportSpecifier, NodeKind.isIdentifier, NodeKind.isDeclarator]
  | memberExpression object key computed isOptional =>
    have hcomputed : computed = false := by
      cases computed <;> simp_all [NodeKind.names]
    have hx : x = key := by simpa [NodeKind.names, hcomputed] using hx
    cases role <;>
      simp_all [Suits, layoutOfKind, visitedLayout, targetLayout, Layout.slots, Role.key,
        NodeKind.isProgram, NodeKind.isName, NodeKind.isImportSpecifier,
        NodeKind.isExportSpecifier, NodeKind.isIdentifier, NodeKind.isDeclarator]
  | importSpecifier | importDefaultSpecifier | importNamespaceSpecifier =>
    cases role with
    | skipped => exact List.mem_map_of_mem hx
    | visited | fieldValue | functionBody => exact absurd rfl hsuits.2
    | _ =>
      simp_all [Suits, NodeKind.isProgram, NodeKind.isIdentifier, NodeKind.isTarget,
        NodeKind.isDeclarator]
  | exportSpecifier localName exported =>
    have hchild : x ∈ (NodeKind.exportSpecifier localName exported).children :=
      List.mem_cons.2 (.inl (List.mem_singleton.1 hx))
    cases role with
    | skipped => exact List.mem_map_of_mem hchild
    | visited | fieldValue | functionBody =>
      exact List.mem_cons.2 (.inl (by rw [List.mem_singleton.1 hx]))
    | _ =>
      simp_all [Suits, NodeKind.isProgram, NodeKind.isIdentifier, NodeKind.isTarget,
        NodeKind.isDeclarator]
  | _ => cases hx

/-- Nothing in an export of another module stands for a variable. -/
theorem slots_of_isReexport (hreexport : kind.isReexport) (c : Context) :
    (t.visitedLayout c n kind).slots = Role.skipAll kind.children := by
  cases kind with
  | exportAllDeclaration exported source => rfl
  | exportNamedDeclaration declaration specifiers source =>
    cases source with
    | none => cases hreexport
    | some source => rfl
  | _ => cases hreexport

/-- Nothing below a skipped node is visited. -/
theorem HasRole.skipped_below (h : t.HasRole o n .skipped) (hx : t.Below x n) :
    t.HasRole o x .skipped := by
  induction hx using Relation.ReflTransGen.head_induction_on with
  | refl => exact h
  | head hchild _ ih =>
    obtain ⟨kind, hkind, hc⟩ := mem_childrenOf_iff.1 hchild
    exact ih.slot hkind (List.mem_map_of_mem hc)

section Places

variable (hplaces : t.UniquePlaces) (hshape : t.ESTreeShaped) (hroot : t.rootKind.isProgram)
  (o : LanguageOptions)

theorem ne_root (hroot : t.rootKind.isProgram) (hkind : t.kind? x = some kind)
    (h : kind.isProgram = false) : x ≠ t.root := by
  rintro rfl
  have hrootKind : t.kind? t.root = some t.rootKind := kind?_eq_some_iff.2 ⟨t.root_lt, rfl⟩
  obtain rfl := Option.some.inj (hkind.symm.trans hrootKind)
  rw [hroot] at h
  cases h

include hshape hroot in
theorem exists_suiting_role (hp : t.Below p t.root) (hkind : t.kind? p = some kind) :
    ∃ role, t.HasRole o p role ∧ t.Suits p kind role := by
  obtain ⟨role, hrole⟩ := exists_role hp o
  exact ⟨role, hrole, hrole.suits hshape hroot hkind⟩

include hplaces hshape hroot in
/-- The parent of a node in the tree has a role that suits it. -/
theorem exists_parent_role (hx : t.Below x t.root) (hne : x ≠ t.root)
    (hkind : t.kind? p = some kind) (hc : x ∈ kind.children) :
    ∃ role, t.HasRole o p role ∧ t.Suits p kind role :=
  exists_suiting_role hshape hroot o
    (below_of_mem_childrenOf hplaces hx hne (mem_childrenOf_iff.2 ⟨kind, hkind, hc⟩)) hkind

include hplaces hshape hroot in
/-- A slot that all layouts of a visited node have. -/
theorem hasRole_of_visitedLayout (hx : t.Below x t.root) (hne : x ≠ t.root)
    (hkind : t.kind? p = some kind) (hplain : kind.isPlain) (hc : x ∈ kind.children) :
    ∃ c, ∀ r, (x, r) ∈ (t.visitedLayout c p kind).slots → t.HasRole o x r := by
  obtain ⟨role, hrole, hsuits⟩ := exists_parent_role hplaces hshape hroot o hx hne hkind hc
  obtain ⟨c, hslots⟩ := exists_visitedLayout hsuits hplain
  exact ⟨c, fun r hr => hrole.slot hkind (hslots ▸ hr)⟩

include hplaces hshape hroot in
/-- A mere name is skipped by the walk. -/
theorem hasRole_of_isMereName (hx : t.Below x t.root) {name : String}
    (hkind : t.kind? x = some (.identifier name)) (h : t.IsMereName x) :
    t.HasRole o x .skipped := by
  have hne := ne_root hroot hkind rfl
  rcases h with ⟨p, kind, hp, hname⟩ | ⟨e, kind, he, hekind, hreexport, hbelow⟩
  · obtain ⟨role, hrole, hsuits⟩ :=
      exists_parent_role hplaces hshape hroot o hx hne hp (NodeKind.mem_children_of_mem_names hname)
    exact hrole.slot hp (skipped_mem_slots hsuits hname)
  · rcases hbelow.cases_tail with rfl | ⟨c, hc, hchild⟩
    · obtain rfl := Option.some.inj (hkind.symm.trans hekind)
      cases hreexport
    · obtain ⟨role, hrole, hsuits⟩ := exists_suiting_role hshape hroot o he hekind
      have hplain : kind.isPlain := by
        cases kind <;> first | rfl | cases hreexport
      obtain ⟨context, hslots⟩ := exists_visitedLayout hsuits hplain
      obtain ⟨kind', hkind', hmem⟩ := mem_childrenOf_iff.1 hchild
      obtain rfl := Option.some.inj (hekind.symm.trans hkind')
      refine (hrole.slot hekind ?_).skipped_below hc
      rw [hslots, slots_of_isReexport hreexport]
      exact List.mem_map_of_mem hmem

include hplaces hshape hroot in
/-- An updated identifier is visited as such. -/
theorem hasRole_of_isUpdated (hx : t.Below x t.root) {name : String}
    (hkind : t.kind? x = some (.identifier name)) (h : t.IsUpdated x) :
    ∃ writeExpr, t.HasRole o x (.updated writeExpr) := by
  have hne := ne_root hroot hkind rfl
  have hpattern : t.isPattern x := by simp [isPattern, hkind, NodeKind.isPattern]
  cases h with
  | @assigned n _ right operator hassign hoperator =>
    obtain ⟨c, hslots⟩ := hasRole_of_visitedLayout hplaces hshape hroot o hx hne hassign rfl
      (List.mem_cons_self ..)
    refine ⟨some right, hslots _ (List.mem_cons.2 (.inl ?_))⟩
    rw [assignedRole, if_pos hpattern, if_neg hoperator]
  | updated hupdate =>
    obtain ⟨c, hslots⟩ := hasRole_of_visitedLayout hplaces hshape hroot o hx hne hupdate rfl
      (List.mem_singleton_self _)
    refine ⟨none, hslots _ (List.mem_cons.2 (.inl ?_))⟩
    rw [if_pos hpattern]

include hplaces hshape hroot in
/-- A declarator that a loop writes has a role that says so. -/
theorem hasRole_of_isLoopDeclarator {d : NodeId} (hd : t.Below d t.root) (hne : d ≠ t.root)
    (h : t.IsLoopDeclarator d) :
    ∃ c declaration kind right, t.HasRole o d (.declarator c declaration kind 0 (some right)) := by
  obtain ⟨n, left, kind, rest, hloop, hleft⟩ := h
  have hchild : d ∈ (NodeKind.variableDeclaration kind (d :: rest)).children :=
    List.mem_cons_self ..
  have hbelow : t.Below left t.root :=
    below_of_mem_childrenOf hplaces hd hne (mem_childrenOf_iff.2 ⟨_, hleft, hchild⟩)
  have hleftNe := ne_root hroot hleft rfl
  have hdeclaration : t.isDeclaration left := by simp [isDeclaration, hleft]
  obtain ⟨c, right, hrole⟩ : ∃ c right, t.HasRole o left (.loopHead c right) := by
    cases hloop with
    | @forIn right _ hkind | @forOf right _ _ hkind =>
      obtain ⟨c, hslots⟩ := hasRole_of_visitedLayout hplaces hshape hroot o hbelow hleftNe hkind rfl
        (List.mem_cons_self ..)
      refine ⟨c, right, hslots _ (List.mem_cons.2 (.inl ?_))⟩
      rw [if_pos hdeclaration]
  exact ⟨c, left, kind, right, hrole.slot hleft (List.mem_cons_self ..)⟩

/-- A declarator is in the role of one. -/
theorem exists_declarator_role (hsuits : t.Suits n kind role) (hkind : kind.isDeclarator) :
    ∃ c declaration variableKind index right,
      role = .declarator c declaration variableKind index right := by
  obtain ⟨id, init, rfl⟩ : ∃ id init, kind = .variableDeclarator id init := by
    cases kind <;> first | exact ⟨_, _, rfl⟩ | exact absurd hkind Bool.false_ne_true
  cases role with
  | declarator c declaration variableKind index right => exact ⟨_, _, _, _, _, rfl⟩
  | visited | fieldValue | functionBody => exact absurd hkind hsuits.1
  | _ =>
    simp_all [Suits, NodeKind.isProgram, NodeKind.isName, NodeKind.isIdentifier,
      NodeKind.isTarget, NodeKind.isImportSpecifier, NodeKind.isExportSpecifier]

/-- Parameters are targets of their function. -/
theorem parameter_mem_slots {params : List NodeId} (hparams : kind.functionParams? = some params)
    (hp : p ∈ params) :
    kind.isPlain ∧ ∃ i, ∀ c, (p, .target c (.parameter n i) p {}) ∈
      (t.visitedLayout c n kind).slots := by
  obtain ⟨i, hi, rfl⟩ := List.getElem_of_mem hp
  have hmem : (params[i], i) ∈ params.zipIdx := List.mem_zipIdx_iff_getElem?.2 (by simp)
  cases kind with
  | functionDeclaration f | functionExpression f =>
    obtain rfl := Option.some.inj hparams
    refine ⟨rfl, i, fun c => List.mem_append_right [] ?_⟩
    exact List.mem_append_left _ (List.mem_append_right _ (List.mem_map.2 ⟨_, hmem, rfl⟩))
  | arrowFunctionExpression f =>
    obtain rfl := Option.some.inj hparams
    refine ⟨rfl, i, fun c => List.mem_append_right [] ?_⟩
    exact List.mem_append_left _ (List.mem_append_right _ (List.mem_map.2 ⟨_, hmem, rfl⟩))
  | _ => cases hparams

include hplaces hshape hroot in
/-- A target that is written `k` times has a role that says so. The parts of a pattern have the role
of the pattern, so the argument is an induction over how the target is reached. -/
theorem hasRole_of_written {k : Nat} (h : t.Written x k) (hx : t.Below x t.root)
    (hkind : t.kind? x = some kind) (hpart : kind.isPatternPart) :
    ∃ c use root s, t.HasRole o x (.target c use root s) ∧ s.defaults.length + use.writes = k := by
  have hprogram {kind : NodeKind} (hpart : kind.isPatternPart) : kind.isProgram = false := by
    cases kind <;> first | rfl | exact absurd hpart Bool.false_ne_true
  have hparent {x p : NodeId} {kind pkind : NodeKind} (hx : t.Below x t.root)
      (hkind : t.kind? x = some kind) (hpart : kind.isPatternPart) (hp : t.kind? p = some pkind)
      (hc : x ∈ pkind.children) : t.Below p t.root :=
    below_of_mem_childrenOf hplaces hx (ne_root hroot hkind (hprogram hpart))
      (mem_childrenOf_iff.2 ⟨pkind, hp, hc⟩)
  induction h generalizing kind with
  | @parameter n fkind params p hfkind hparams hp =>
    have hne := ne_root hroot hkind (hprogram hpart)
    obtain ⟨hplain, i, hmem⟩ := parameter_mem_slots (t := t) (n := n) hparams hp
    obtain ⟨c, hslots⟩ := hasRole_of_visitedLayout hplaces hshape hroot o hx hne hfkind hplain
      (NodeKind.mem_children_of_functionParams? (by rw [hparams]; exact hp))
    exact ⟨c, _, _, _, hslots _ (hmem c), rfl⟩
  | catchParameter hcatch =>
    have hne := ne_root hroot hkind (hprogram hpart)
    obtain ⟨c, hslots⟩ := hasRole_of_visitedLayout hplaces hshape hroot o hx hne hcatch rfl
      (List.mem_cons_self ..)
    exact ⟨c, _, _, _, hslots _ (List.mem_cons_self ..), rfl⟩
  | @declarator d id init hd hloop =>
    have hbelow := hparent hx hkind hpart hd (List.mem_cons_self ..)
    obtain ⟨role, hrole, hsuits⟩ := exists_suiting_role hshape hroot o hbelow hd
    obtain ⟨c, declaration, variableKind, index, right, rfl⟩ := exists_declarator_role hsuits rfl
    obtain rfl : right = none := Option.not_isSome_iff_eq_none.1 (mt hsuits.2 hloop)
    refine ⟨c, _, _, _, hrole.slot hd (List.mem_cons_self ..), ?_⟩
    simp [PatternUse.writes]
  | @loopDeclarator d id init hd hloop =>
    have hbelow := hparent hx hkind hpart hd (List.mem_cons_self ..)
    obtain ⟨c, declaration, variableKind, right, hrole⟩ := hasRole_of_isLoopDeclarator hplaces
      hshape hroot o hbelow (ne_root hroot hd rfl) hloop
    refine ⟨c, _, _, _, hrole.slot hd (List.mem_cons_self ..), ?_⟩
    simp [PatternUse.writes]
  | @assigned n left right hassign =>
    have hne := ne_root hroot hkind (hprogram hpart)
    have hbelow := hparent hx hkind hpart hassign (List.mem_cons_self ..)
    have hrest := shaped_rest (hshape _ _ hbelow hassign)
    have hpattern : t.isPattern left := by
      cases kind with
      | property p => simp [shapedChildren, admits, hkind, isTarget, isProperty] at hrest
      | _ => first
        | exact absurd hpart Bool.false_ne_true
        | simp [isPattern, hkind, NodeKind.isPattern]
    obtain ⟨c, hslots⟩ := hasRole_of_visitedLayout hplaces hshape hroot o hx hne hassign rfl
      (List.mem_cons_self ..)
    refine ⟨c, .assignment n right true, left, {}, hslots _ (List.mem_cons.2 (.inl ?_)), rfl⟩
    rw [assignedRole, if_pos hpattern, if_pos rfl]
  | @loop n left hloop =>
    have hne := ne_root hroot hkind (hprogram hpart)
    have hdeclaration : t.isDeclaration left = false := by
      cases kind <;> first
        | exact absurd hpart Bool.false_ne_true
        | simp [isDeclaration, hkind]
    cases hloop with
    | @forIn right _ hn | @forOf right _ _ hn =>
      obtain ⟨c, hslots⟩ := hasRole_of_visitedLayout hplaces hshape hroot o hx hne hn rfl
        (List.mem_cons_self ..)
      refine ⟨c, .assignment n right false, left, {}, hslots _ (List.mem_cons.2 (.inl ?_)), rfl⟩
      rw [hdeclaration, if_neg Bool.false_ne_true]
  | @element p x elements k hp hpkind helement ih =>
    have hc : x ∈ (NodeKind.arrayPattern elements).children :=
      List.mem_filterMap.2 ⟨some x, helement, rfl⟩
    obtain ⟨c, use, root, s, hrole, hk⟩ := ih (hparent hx hkind hpart hpkind hc) hpkind rfl
    exact ⟨c, use, root, s, hrole.slot hpkind (List.mem_map_of_mem hc), hk⟩
  | @member p x properties k hp hpkind hmember ih =>
    obtain ⟨c, use, root, s, hrole, hk⟩ := ih (hparent hx hkind hpart hpkind hmember) hpkind rfl
    exact ⟨c, use, root, s, hrole.slot hpkind (List.mem_map_of_mem hmember), hk⟩
  | @value p q k hp hpkind ih =>
    have hc : q.value ∈ (NodeKind.property q).children := by simp [NodeKind.children]
    obtain ⟨c, use, root, s, hrole, hk⟩ := ih (hparent hx hkind hpart hpkind hc) hpkind rfl
    exact ⟨c, use, root, s,
      hrole.slot hpkind (List.mem_cons_of_mem _ (List.mem_singleton_self _)), hk⟩
  | @rest p argument k hp hpkind ih =>
    have hc := List.mem_singleton_self argument
    obtain ⟨c, use, root, s, hrole, hk⟩ := ih (hparent hx hkind hpart hpkind hc) hpkind rfl
    exact ⟨c, use, root, _, hrole.slot hpkind (List.mem_singleton_self _), hk⟩
  | @default p left right k hp hpkind ih =>
    have hc : left ∈ (NodeKind.assignmentPattern left right).children := List.mem_cons_self ..
    obtain ⟨c, use, root, s, hrole, hk⟩ := ih (hparent hx hkind hpart hpkind hc) hpkind rfl
    refine ⟨c, use, root, _, hrole.slot hpkind (List.mem_cons_self ..), ?_⟩
    rw [List.length_append, List.length_singleton]
    omega

end Places

end Tree

section Analyze

variable {names names' : NameTable} {t : Tree} {o : LanguageOptions} {envs : Environments}
  {g : ScopeGraph Name}

/-- Every identifier of an ESTree syntax tree is classified by its place: a mere name has no
reference, the target of a compound assignment or an update is read and written by one, a target
in a pattern has one writing reference for each value that it may receive, and every other
identifier has one reading reference. -/
theorem accessesAt_identifier (h : analyze names t o envs = (names', .ok g))
    (hplaces : t.UniquePlaces) (hshape : t.ESTreeShaped) {x : NodeId} {name : String}
    (hx : t.Below x t.root) (hkind : t.kind? x = some (.identifier name)) :
    (t.IsMereName x → g.accessesAt x = []) ∧
      (t.IsUpdated x → g.accessesAt x = [.readWrite]) ∧
      (∀ k, t.Written x k → g.accessesAt x = List.replicate k .write) ∧
      (¬t.IsMereName x → ¬t.IsUpdated x → (∀ k, ¬t.Written x k) →
        g.accessesAt x = [.read]) := by
  have hroot := isProgram_of_analyze h
  have haccesses {role : Role} (hrole : t.HasRole o x role) :
      (g.accessesAt x).Perm role.accesses := by
    obtain ⟨v, hv, rfl, rfl⟩ := hrole
    exact perm_accessesAt h hplaces hv hkind
  refine ⟨fun hname => ?_, fun hupdated => ?_, fun k hwritten => ?_,
    fun hname hupdated hwritten => ?_⟩
  · exact (haccesses (Tree.hasRole_of_isMereName hplaces hshape hroot o hx hkind hname)).eq_nil
  · obtain ⟨writeExpr, hrole⟩ :=
      Tree.hasRole_of_isUpdated hplaces hshape hroot o hx hkind hupdated
    exact List.perm_singleton.1 (haccesses hrole)
  · obtain ⟨c, use, root, s, hrole, rfl⟩ :=
      Tree.hasRole_of_written hplaces hshape hroot o hwritten hx hkind rfl
    exact List.perm_replicate.1 (haccesses hrole)
  · obtain ⟨role, hrole⟩ := Tree.exists_role hx o
    have hsuits := hrole.suits hshape hroot hkind
    have haccesses := haccesses hrole
    cases role with
    | visited | fieldValue | functionBody => exact List.perm_singleton.1 haccesses
    | skipped =>
      rcases hsuits with ⟨-, hmere⟩ | h | ⟨h, -⟩
      · exact absurd (hmere rfl) hname
      · cases h
      · cases h
    | updated => exact absurd hsuits.2 hupdated
    | target =>
      obtain ⟨⟨k, hk⟩, -⟩ := hsuits
      exact absurd hk (hwritten k)
    | program => cases hsuits
    | declarator => cases hsuits.1
    | loopHead =>
      obtain ⟨⟨_, _, heq⟩, -⟩ := hsuits
      cases heq

/-- `[x = "a"] = y` -/
def destructuringDefault : Build NodeId := do
  let x ← .identifier "x"
  let pattern ← .alloc (.assignmentPattern x (← .string "a"))
  let left ← .alloc (.arrayPattern [some pattern])
  let assignment ← .alloc (.assignmentExpression .assign left (← .identifier "y"))
  let statement ← .alloc (.expressionStatement assignment none)
  .alloc (.program [statement] .script)

/-- Here `x` is written by its default and by the assignment. -/
theorem accessesAt_destructuringDefault : ∃ t names g, ∃ x : NodeId,
    Build.tree destructuringDefault = .ok t ∧ analyze {} t {} {} = (names, .ok g) ∧
      t.UniquePlaces ∧ t.ESTreeShaped ∧ t.Below x t.root ∧
      t.kind? x = some (.identifier "x") ∧ t.Written x 2 ∧
      g.accessesAt x = [.write, .write] := by
  obtain ⟨t, names, g, ht, h, hplaces, hshape⟩ := exists_analysis destructuringDefault {} {}
    (fun t _ _ => t.UniquePlaces ∧ t.nodes.all fun node => t.shaped node.kind)
    (by decide +kernel)
  have hshape := Tree.estreeShaped_of_all hshape
  have hkind (n : NodeId) :
      t.kind? n = (Build.tree destructuringDefault).toOption.bind (·.kind? n) := by
    rw [ht]
    rfl
  have hchild {c p : NodeId} {kind : NodeKind} (hp : t.kind? p = some kind)
      (hc : c ∈ kind.children) : t.IsChild c p := Tree.mem_childrenOf_iff.2 ⟨kind, hp, hc⟩
  have hx : t.kind? ⟨0⟩ = some (.identifier "x") := by rw [hkind]; rfl
  have hdefault : t.kind? ⟨2⟩ = some (.assignmentPattern ⟨0⟩ ⟨1⟩) := by rw [hkind]; rfl
  have harray : t.kind? ⟨3⟩ = some (.arrayPattern [some ⟨2⟩]) := by rw [hkind]; rfl
  have hassign : t.kind? ⟨5⟩ = some (.assignmentExpression .assign ⟨3⟩ ⟨4⟩) := by
    rw [hkind]; rfl
  have hstatement : t.kind? ⟨6⟩ = some (.expressionStatement ⟨5⟩ none) := by rw [hkind]; rfl
  have hprogram : t.kind? ⟨7⟩ = some (.program [⟨6⟩] .script) := by rw [hkind]; rfl
  have hroot : t.root = ⟨7⟩ := by
    have hroot : some t.root = (Build.tree destructuringDefault).toOption.map Tree.root := by
      rw [ht]
      rfl
    exact Option.some.inj hroot
  have hbelow : t.Below ⟨0⟩ t.root := by
    rw [hroot]
    refine .head (hchild hdefault ?_) (.head (hchild harray ?_) (.head (hchild hassign ?_)
      (.head (hchild hstatement ?_) (.single (hchild hprogram ?_))))) <;>
      simp [NodeKind.children]
  have hwritten : t.Written ⟨0⟩ 2 :=
    .default (.element (.assigned hassign) harray (List.mem_singleton_self _)) hdefault
  exact ⟨t, names, g, ⟨0⟩, ht, h, hplaces, hshape, hbelow, hx, hwritten,
    (accessesAt_identifier h hplaces hshape hbelow hx).2.2.1 2 hwritten⟩

end Analyze

end LexicalScope
