import LexicalScope.Proofs.Ancestors
import LexicalScope.Proofs.Bracketing

/-!
Roles. What a walk does at a node depends on the role that the nodes above give to it: most nodes
are visited, some only bear a name, others are targets of a pattern. A role says which steps a
walk takes at the node itself and which roles the children have. So every node below a visited
one is met once, in one role and with certain scopes open around it.
-/
namespace LexicalScope

/-- What a pattern does with its targets. -/
inductive PatternUse where
  | parameter (function : NodeId) (index : Nat)
  | catchParameter (clause : NodeId)
  /-- The variable of a loop is also written by what stands to its `right`. -/
  | declarator (declaration node : NodeId) (kind : VariableKind) (index : Nat)
      (init right : Option NodeId)
  | assignment (node right : NodeId) (whole : Bool)

def PatternUse.steps (x : PatternTarget) : PatternUse → Outline
  | parameter function index =>
    x.declare .current (.ofParameter x.identifier function index x.rest)
  | catchParameter clause =>
    x.declare .current { kind := .catchClause, name := x.identifier, node := clause }
  | declarator declaration node kind index init right =>
    x.declare (if kind = .varDecl then .variableScope else .current)
        (.ofDeclarator x.identifier node declaration index kind) ++
      init.toList.map (fun e => x.write e x.topLevel true none) ++
      right.toList.map fun e => x.write e false true none
  | assignment node right whole =>
    x.defaultWrites false (some node) ++
      [x.write right (whole && x.topLevel) false (some node)]

/-- The part of a node in a walk. -/
inductive Role where
  | program (o : LanguageOptions)
  /-- Not walked over. -/
  | skipped
  | visited (c : Context)
  /-- The initializer of a class field, visited in a scope of its own. -/
  | fieldValue (c : Context)
  /-- The body of a function; a block opens no scope here. -/
  | functionBody (c : Context)
  /-- The target of a compound assignment or an update. -/
  | updated (writeExpr : Option NodeId)
  /-- A part of the pattern `root`. -/
  | target (c : Context) (use : PatternUse) (root : NodeId) (s : Pattern.Surroundings)
  | declarator (c : Context) (declaration : NodeId) (kind : VariableKind) (index : Nat)
      (right : Option NodeId)
  /-- A declaration in the head of a loop over what stands to its `right`. -/
  | loopHead (c : Context) (right : NodeId)

/-- What a role makes of a node: the steps taken first, the children that come before the steps
of the node itself, these steps, and the other children. -/
structure Layout where
  first : Outline := []
  early : List (NodeId × Role) := []
  own : Outline := []
  late : List (NodeId × Role) := []

namespace Role

def visitAll (c : Context) (nodes : List NodeId) : List (NodeId × Role) :=
  nodes.map (·, visited c)

def skipAll (nodes : List NodeId) : List (NodeId × Role) :=
  nodes.map (·, skipped)

/-- A key is visited if it is computed, and else only a name. -/
def key (c : Context) (computed : Bool) : Role :=
  if computed then visited c else skipped

end Role

namespace Tree

/-- Whether the head of a loop declares names of the loop alone. -/
def declaresLexically (t : Tree) (head : Option NodeId) : Bool :=
  match head.bind t.kind? with
  | some (.variableDeclaration kind _) => kind ≠ .varDecl
  | _ => false

def isDeclaration (t : Tree) (n : NodeId) : Bool :=
  (t.kind? n).any fun
    | .variableDeclaration .. => true
    | _ => false

def assignedRole (t : Tree) (c : Context) (n : NodeId) (operator : AssignmentOperator)
    (left right : NodeId) : Role :=
  if t.isPattern left then
    if operator = .assign then .target c (.assignment n right true) left {}
    else .updated (some right)
  else .visited c

def loopLayout (t : Tree) (c : Context) (n left right body : NodeId) : Layout where
  own := if t.declaresLexically (some left) then [.enter .forLoop n false] else []
  late := [
    (left, if t.isDeclaration left then .loopHead c right
      else .target c (.assignment n right false) left {}),
    (right, .visited c), (body, .visited c)]

def functionLayout (t : Tree) (c : Context) (n : NodeId) (kind : NodeKind) (id : Option NodeId)
    (params : List NodeId) (body : Option NodeId) : Layout where
  own := t.functionNameSteps n kind ++
    enterFunction n (c.inMethod || t.isStrictFunction kind)
      (kind matches .arrowFunctionExpression _)
  late := Role.skipAll id.toList ++
    (params.zipIdx.map fun (p, i) => (p, .target c (.parameter n i) p {})) ++
    body.toList.map (·, .functionBody c)

def classLayout (t : Tree) (c : Context) (n : NodeId) (isDeclaration : Bool) (parts : Class) :
    Layout where
  own :=
    let named := parts.id.toList.flatMap fun id =>
      t.declareAt .current id { kind := .className, name := id, node := n }
    (if isDeclaration then named else []) ++ .enter .classBody n true :: named
  late := Role.skipAll parts.id.toList ++
    Role.visitAll c (parts.superClass.toList ++ [parts.body])

def visitedLayout (t : Tree) (c : Context) (n : NodeId) (kind : NodeKind) : Layout :=
  match kind with
  | .identifier name => { own := [.refer { identifier := n, name, access := .read }] }
  | .thisExpression => { own := [.this] }
  | .metaProperty .. | .breakStatement _ | .continueStatement _ | .exportAllDeclaration .. =>
    { late := Role.skipAll kind.children }
  | .assignmentExpression operator left right =>
    { late := [(left, t.assignedRole c n operator left right), (right, .visited c)] }
  | .updateExpression _ _ argument =>
    { late := [(argument, if t.isPattern argument then .updated none else .visited c)] }
  | .memberExpression object key computed _ =>
    { late := [(object, .visited c), (key, .key c computed)] }
  | .property p => { late := [(p.key, .key c p.computed), (p.value, .visited c)] }
  | .methodDefinition m =>
    { late := [(m.key, .key c m.computed), (m.value, .visited { c with inMethod := true })] }
  | .propertyDefinition p =>
    { late := (p.key, .key c p.computed) :: p.value.toList.map (·, .fieldValue c) }
  | .staticBlock body =>
    { own := [.enter .staticBlock n false], late := Role.visitAll c body }
  | .labeledStatement label body => { late := [(label, .skipped), (body, .visited c)] }
  | .blockStatement body => { own := [.enter .block n false], late := Role.visitAll c body }
  | .forStatement start .. =>
    { own := if t.declaresLexically start then [.enter .forLoop n false] else []
      late := Role.visitAll c kind.children }
  | .forInStatement left right body | .forOfStatement left right body _ =>
    t.loopLayout c n left right body
  | .switchStatement discriminant cases =>
    { early := [(discriminant, .visited c)]
      own := [.enter .switchBody n false]
      late := Role.visitAll c cases }
  | .withStatement object body =>
    { early := [(object, .visited c)]
      own := [.enter .withBody n false]
      late := [(body, .visited c)] }
  | .catchClause param body =>
    { own := [.enter .catchClause n false]
      late := (param.toList.map fun p => (p, .target c (.catchParameter n) p {})) ++
        [(body, .visited c)] }
  | .variableDeclaration kind declarations =>
    { late := declarations.zipIdx.map fun (d, i) => (d, .declarator c n kind i none) }
  | .functionDeclaration f | .functionExpression f =>
    t.functionLayout c n kind f.id f.params f.body
  | .arrowFunctionExpression f => t.functionLayout c n kind none f.params (some f.body)
  | .classDeclaration parts => t.classLayout c n true parts
  | .classExpression parts => t.classLayout c n false parts
  | .importDeclaration specifiers _ importKind =>
    { own := if c.isModule then t.importSteps n specifiers importKind else [.misplacedImport n]
      late := Role.skipAll kind.children }
  | .exportNamedDeclaration declaration specifiers source =>
    match source, declaration with
    | some _, _ => { late := Role.skipAll kind.children }
    | none, some declaration =>
      { late := (declaration, .visited c) :: Role.skipAll specifiers }
    | none, none => { late := Role.visitAll c kind.children }
  | .exportSpecifier localName exported =>
    { late := [(exported, .skipped), (localName, .visited c)] }
  | _ => { late := Role.visitAll c kind.children }

def targetLayout (c : Context) (use : PatternUse) (root : NodeId) (s : Pattern.Surroundings)
    (n : NodeId) (kind : NodeKind) : Layout :=
  let role := Role.target c use root
  match kind with
  | .identifier name =>
    { own := use.steps {
        identifier := n
        name
        topLevel := n = root
        rest := s.restArgument = some n
        defaults := s.defaults } }
  | .property p => { late := [(p.key, .key c p.computed), (p.value, role s)] }
  | .assignmentPattern left right | .assignmentExpression _ left right =>
    { late := [(left, role { s with defaults := s.defaults ++ [⟨n, left, right⟩] }),
        (right, .visited c)] }
  | .restElement argument =>
    { late := [(argument, role { s with restArgument := some argument })] }
  | .memberExpression object key computed _ =>
    { late := [(object, .visited c), (key, .key c computed)] }
  | .callExpression callee arguments _ =>
    { late := (callee, role s) :: Role.visitAll c arguments }
  | kind => { late := kind.children.map (·, role s) }

def layoutOfKind (t : Tree) (n : NodeId) (kind : NodeKind) : Role → Layout
  | .program o =>
    match kind with
    | .program body sourceType =>
      { own := t.enterProgram o sourceType
        late := Role.visitAll { isModule := o.isModuleFor sourceType } body }
    | _ => { late := Role.skipAll kind.children }
  | .skipped => { late := Role.skipAll kind.children }
  | .visited c => t.visitedLayout c n kind
  | .fieldValue c => { t.visitedLayout c n kind with first := [.enter .fieldInitializer n false] }
  | .functionBody c =>
    match kind with
    | .blockStatement statements => { late := Role.visitAll c statements }
    | _ => t.visitedLayout c n kind
  | .updated writeExpr => { own := t.updateAt n writeExpr, late := Role.skipAll kind.children }
  | .target c use root s => targetLayout c use root s n kind
  | .declarator c declaration variableKind index right =>
    match kind with
    | .variableDeclarator id init =>
      { late := (id, .target c (.declarator declaration n variableKind index init right) id {}) ::
          Role.visitAll c init.toList }
    | _ => { late := Role.skipAll kind.children }
  | .loopHead c right =>
    match kind with
    | .variableDeclaration variableKind declarations =>
      { late := declarations.zipIdx.map fun (d, i) =>
          (d, .declarator c n variableKind i (if i = 0 then some right else none)) }
    | _ => t.visitedLayout c n kind

def layout (t : Tree) (role : Role) (n : NodeId) : Layout :=
  (t.kind? n).elim {} (t.layoutOfKind n · role)

end Tree

/-- A node that a walk comes to, with its role and the blocks of the scopes open around it. -/
structure Visit where
  node : NodeId
  role : Role
  blocks : List NodeId

namespace Tree

variable (t : Tree)

def outside (v : Visit) : List NodeId :=
  (t.layout v.role v.node).first.foldl Step.blocksAfter v.blocks

def inside (v : Visit) : List NodeId :=
  (t.layout v.role v.node).own.foldl Step.blocksAfter (t.outside v)

def inner (v : Visit) : List Visit :=
  ((t.layout v.role v.node).early.map fun x => ⟨x.1, x.2, t.outside v⟩) ++
    (t.layout v.role v.node).late.map fun x => ⟨x.1, x.2, t.inside v⟩

def marks (v : Visit) : List (Located String) :=
  Step.trace v.blocks (t.layout v.role v.node).first ++
    Step.trace (t.outside v) (t.layout v.role v.node).own

def visitsWithin : Nat → Visit → List Visit
  | 0, _ => []
  | fuel + 1, v => v :: (t.inner v).flatMap (visitsWithin fuel)

/-- A visited node and all nodes below it. Children have smaller numbers, so there are no more
levels than the number of the node. -/
def visits (v : Visit) : List Visit :=
  t.visitsWithin (v.node.index + 1) v

def marksFrom (v : Visit) : List (Located String) :=
  (t.visits v).flatMap t.marks

end Tree

namespace Layout

def slots (l : Layout) : List (NodeId × Role) :=
  l.early ++ l.late

end Layout

namespace Role

@[simp] theorem map_fst_visitAll (c : Context) (nodes : List NodeId) :
    (visitAll c nodes).map (·.1) = nodes := by
  simp [visitAll, Function.comp_def]

@[simp] theorem map_fst_skipAll (nodes : List NodeId) : (skipAll nodes).map (·.1) = nodes := by
  simp [skipAll, Function.comp_def]

end Role

namespace Tree

variable {t : Tree} {c : Context} {n : NodeId} {kind : NodeKind}

/-- Each child has one role, in the order of the children. -/
theorem map_fst_visitedLayout (t : Tree) (c : Context) (n : NodeId) (kind : NodeKind) :
    (t.visitedLayout c n kind).slots.map (·.1) = kind.children := by
  unfold visitedLayout
  split
  case h_29 declaration specifiers source =>
    cases source <;> cases declaration <;> simp [Layout.slots, NodeKind.children]
  all_goals
    simp [Layout.slots, NodeKind.children, loopLayout, functionLayout, classLayout,
      Function.comp_def, List.zipIdx_map_fst]

theorem first_visitedLayout (t : Tree) (c : Context) (n : NodeId) (kind : NodeKind) :
    (t.visitedLayout c n kind).first = [] := by
  unfold visitedLayout
  split
  case h_29 declaration specifiers source => cases source <;> cases declaration <;> rfl
  all_goals rfl

/-- Only the initializer of a field has a scope around everything. -/
theorem first_layoutOfKind (t : Tree) (n : NodeId) (kind : NodeKind) (role : Role) :
    (t.layoutOfKind n kind role).first =
      if role matches .fieldValue _ then [.enter .fieldInitializer n false] else [] := by
  have hvisited (c : Context) := t.first_visitedLayout c n kind
  cases role with
  | visited c => exact hvisited c
  | fieldValue c | skipped | updated writeExpr => rfl
  | program o => cases kind <;> rfl
  | target c use root s => cases kind <;> rfl
  | declarator c declaration variableKind index right => cases kind <;> rfl
  | functionBody c =>
    unfold layoutOfKind
    dsimp only
    split
    · rfl
    · exact hvisited c
  | loopHead c right =>
    unfold layoutOfKind
    dsimp only
    split
    · rfl
    · exact hvisited c

theorem map_fst_targetLayout (c : Context) (use : PatternUse) (root : NodeId)
    (s : Pattern.Surroundings) (n : NodeId) (kind : NodeKind) :
    (targetLayout c use root s n kind).slots.map (·.1) = kind.children := by
  unfold targetLayout
  dsimp only
  split <;> simp [Layout.slots, NodeKind.children, Function.comp_def]

/-- Each child has one role, whatever the role of the node itself. -/
theorem map_fst_layoutOfKind (t : Tree) (n : NodeId) (kind : NodeKind) (role : Role) :
    (t.layoutOfKind n kind role).slots.map (·.1) = kind.children := by
  have hvisited (c : Context) := map_fst_visitedLayout t c n kind
  cases role with
  | visited c => exact hvisited c
  | fieldValue c => exact hvisited c
  | target c use root s => exact map_fst_targetLayout c use root s n kind
  | skipped | updated writeExpr => simp [layoutOfKind, Layout.slots]
  | program o =>
    unfold layoutOfKind
    dsimp only
    split <;> simp [Layout.slots, NodeKind.children]
  | functionBody c =>
    unfold layoutOfKind
    dsimp only
    split
    · simp [Layout.slots, NodeKind.children]
    · exact hvisited c
  | declarator c declaration variableKind index right =>
    unfold layoutOfKind
    dsimp only
    split <;> simp [Layout.slots, NodeKind.children]
  | loopHead c right =>
    unfold layoutOfKind
    dsimp only
    split
    · simp [Layout.slots, NodeKind.children, Function.comp_def, List.zipIdx_map_fst]
    · exact hvisited c

/-- Every role gives one role to each child. -/
theorem map_fst_slots (t : Tree) (role : Role) (n : NodeId) :
    (t.layout role n).slots.map (·.1) = t.childrenOf n := by
  rw [layout, childrenOf]
  cases t.kind? n with
  | none => rfl
  | some kind => exact map_fst_layoutOfKind t n kind role

section Visits

variable {v w : Visit}

theorem map_node_inner (t : Tree) (v : Visit) :
    (t.inner v).map (·.node) = t.childrenOf v.node := by
  rw [← map_fst_slots t v.role, inner, Layout.slots]
  simp [Function.comp_def]

theorem node_mem_childrenOf (h : w ∈ t.inner v) : w.node ∈ t.childrenOf v.node :=
  map_node_inner t v ▸ List.mem_map_of_mem h

theorem index_lt_of_mem_inner (h : w ∈ t.inner v) : w.node.index < v.node.index :=
  index_lt_of_mem_childrenOf (node_mem_childrenOf h)

/-- Children have smaller numbers, so more fuel visits nothing more. -/
theorem visitsWithin_fuel {fuel fuel' : Nat} (hfuel : v.node.index < fuel)
    (hfuel' : v.node.index < fuel') : t.visitsWithin fuel v = t.visitsWithin fuel' v := by
  induction fuel generalizing v fuel' with
  | zero => omega
  | succ fuel ih =>
    cases fuel' with
    | zero => omega
    | succ fuel' =>
      rw [visitsWithin, visitsWithin]
      congr 1
      apply List.flatMap_congr
      intro w hw
      have hlt := index_lt_of_mem_inner hw
      exact ih (by omega) (by omega)

theorem visits_eq (t : Tree) (v : Visit) : t.visits v = v :: (t.inner v).flatMap t.visits := by
  rw [visits, visitsWithin]
  congr 1
  apply List.flatMap_congr
  intro w hw
  exact visitsWithin_fuel (index_lt_of_mem_inner hw) (Nat.lt_succ_self _)

/-- Induction along the way down from a visited node. -/
theorem visits_induction {motive : Visit → Prop} (v : Visit)
    (h : ∀ v, (∀ w ∈ t.inner v, motive w) → motive v) : motive v := by
  induction hk : v.node.index using Nat.strong_induction_on generalizing v with
  | _ k ih =>
    subst hk
    exact h v fun w hw => ih _ (index_lt_of_mem_inner hw) w rfl

theorem mem_visits_self (t : Tree) (v : Visit) : v ∈ t.visits v := by
  rw [visits_eq]
  exact List.mem_cons_self ..

theorem mem_visits_of_mem_inner {u : Visit} (hw : w ∈ t.inner v) (hu : u ∈ t.visits w) :
    u ∈ t.visits v := by
  rw [visits_eq]
  exact List.mem_cons_of_mem _ (List.mem_flatMap.2 ⟨w, hw, hu⟩)

/-- What holds of a visited node, and with every node of its children too, holds of all nodes
below it. -/
theorem visits_down {motive : Visit → Prop} (hself : motive v)
    (hinner : ∀ u ∈ t.visits v, motive u → ∀ w ∈ t.inner u, motive w) :
    ∀ w ∈ t.visits v, motive w := by
  induction v using visits_induction with
  | h v ih =>
    intro w hw
    rw [visits_eq] at hw
    rcases List.mem_cons.1 hw with rfl | hw
    · exact hself
    · obtain ⟨u, hu, hw⟩ := List.mem_flatMap.1 hw
      refine ih u hu (hinner v (mem_visits_self t v) hself u hu) ?_ w hw
      exact fun u' hu' => hinner u' (mem_visits_of_mem_inner hu hu')

/-- The children of visited nodes are visited. -/
theorem inner_subset_visits {u : Visit} (hu : u ∈ t.visits v) (hw : w ∈ t.inner u) :
    w ∈ t.visits v := by
  induction v using visits_induction with
  | h v ih =>
    rw [visits_eq] at hu
    rcases List.mem_cons.1 hu with rfl | hu
    · exact mem_visits_of_mem_inner hw (mem_visits_self t w)
    · obtain ⟨u', hu', hu⟩ := List.mem_flatMap.1 hu
      exact mem_visits_of_mem_inner hu' (ih u' hu' hu)

/-- Every visited node other than the first is a child of a visited node. -/
theorem mem_visits_cases (h : w ∈ t.visits v) : w = v ∨ ∃ u ∈ t.visits v, w ∈ t.inner u := by
  induction v using visits_induction with
  | h v ih =>
    rw [visits_eq] at h
    rcases List.mem_cons.1 h with rfl | h
    · exact .inl rfl
    · obtain ⟨u, hu, hw⟩ := List.mem_flatMap.1 h
      rcases ih u hu hw with rfl | ⟨u', hu', hw⟩
      · exact .inr ⟨v, mem_visits_self t v, hu⟩
      · exact .inr ⟨u', mem_visits_of_mem_inner hu hu', hw⟩

end Visits

end Tree

end LexicalScope
