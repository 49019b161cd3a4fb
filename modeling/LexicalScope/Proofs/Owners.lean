import LexicalScope.Proofs.Marks

/-!
Which scopes a visited node opens, and which node a role belongs to. A declarator and its targets
belong to their declaration, the targets of a parameter to its function, those of a catch clause
to the clause; they are met with the scopes open that their owner has around its children.
-/
namespace LexicalScope

section Steps

variable {ν : Type}

def Step.scopeKind? : Step ν → Option ScopeKind
  | enter kind _ _ => some kind
  | _ => none

def Step.scopeKinds (steps : List (Step ν)) : List ScopeKind :=
  steps.filterMap scopeKind?

/-- Steps that leave no scope and open none at other nodes than `n`. -/
def Step.StaysAt (n : NodeId) : Step ν → Prop
  | enter _ block _ => block = n
  | leave _ => False
  | _ => True

/-- Steps that leave no scope and open scopes of these kinds at `n`. -/
structure Step.OpensAt (n : NodeId) (steps : List (Step ν)) (kinds : List ScopeKind) : Prop where
  staysAt : ∀ step ∈ steps, step.StaysAt n
  scopeKinds_eq : scopeKinds steps = kinds

namespace Step.OpensAt

variable {n : NodeId} {steps steps' : List (Step ν)} {kinds kinds' : List ScopeKind}

theorem append (h : OpensAt n steps kinds) (h' : OpensAt n steps' kinds') :
    OpensAt n (steps ++ steps') (kinds ++ kinds') where
  staysAt step hstep := (List.mem_append.1 hstep).elim (h.staysAt step) (h'.staysAt step)
  scopeKinds_eq := by
    rw [scopeKinds, List.filterMap_append, ← scopeKinds, ← scopeKinds, h.scopeKinds_eq,
      h'.scopeKinds_eq]

theorem enter (n : NodeId) (kind : ScopeKind) (strict : Bool) :
    OpensAt n [(.enter kind n strict : Step ν)] [kind] :=
  ⟨fun _ hstep => List.mem_singleton.1 hstep ▸ rfl, rfl⟩

theorem of_isStill (h : ∀ step ∈ steps, step.IsStill) : OpensAt n steps [] := by
  refine ⟨fun step hstep => ?_, List.filterMap_eq_nil_iff.2 fun step hstep => ?_⟩
  · have hstill := h step hstep
    cases step <;> trivial
  · have hstill := h step hstep
    cases step <;> first | rfl | exact hstill.elim

theorem nil (n : NodeId) : OpensAt n ([] : List (Step ν)) [] :=
  of_isStill fun _ h => nomatch h

theorem flatMap {α : Type} {l : List α} {f : α → List (Step ν)}
    (h : ∀ x ∈ l, OpensAt n (f x) []) : OpensAt n (l.flatMap f) [] := by
  induction l with
  | nil => exact nil n
  | cons x l ih =>
    exact (h x (List.mem_cons_self ..)).append (ih fun y hy => h y (List.mem_cons_of_mem _ hy))

theorem ite {p : Prop} [Decidable p] (h : OpensAt n steps kinds) :
    OpensAt n (if p then steps else []) (if p then kinds else []) := by
  split
  · exact h
  · exact nil n

/-- After the steps, the scopes opened at `n` stand inside those that were open. -/
theorem foldl_blocksAfter (h : OpensAt n steps kinds) (blocks : List NodeId) :
    steps.foldl blocksAfter blocks = List.replicate kinds.length n ++ blocks := by
  obtain ⟨hstays, rfl⟩ := h
  induction steps generalizing blocks with
  | nil => rfl
  | cons step steps ih =>
    have hstep := hstays step (List.mem_cons_self ..)
    rw [List.foldl_cons, ih _ fun x hx => hstays x (List.mem_cons_of_mem _ hx)]
    cases step with
    | enter kind block strict =>
      obtain rfl : block = n := hstep
      show _ ++ block :: blocks = List.replicate (scopeKinds steps).length.succ block ++ blocks
      rw [List.replicate_succ', List.append_assoc]
      rfl
    | leave => exact hstep.elim
    | _ => rfl

end Step.OpensAt

end Steps

/-- The node whose names a pattern declares. -/
def PatternUse.owner? : PatternUse → Option NodeId
  | parameter function _ => some function
  | catchParameter clause => some clause
  | declarator declaration .. => some declaration
  | assignment .. => none

def PatternUse.scopeKind? : PatternUse → Option ScopeKind
  | parameter .. => some .function
  | catchParameter _ => some .catchClause
  | declarator .. | assignment .. => none

namespace Role

def owner? : Role → Option NodeId
  | target _ use .. => use.owner?
  | declarator _ declaration .. => some declaration
  | _ => none

def scopeKind? : Role → Option ScopeKind
  | target _ use .. => use.scopeKind?
  | _ => none

end Role

namespace Tree

variable {t : Tree} {n : NodeId} {kind : NodeKind}

def scopesOfKind (t : Tree) : NodeKind → List ScopeKind
  | .staticBlock _ => [.staticBlock]
  | .blockStatement _ => [.block]
  | .forStatement start .. => if t.declaresLexically start then [.forLoop] else []
  | .forInStatement left .. | .forOfStatement left .. =>
    if t.declaresLexically (some left) then [.forLoop] else []
  | .switchStatement .. => [.switchBody]
  | .withStatement .. => [.withBody]
  | .catchClause .. => [.catchClause]
  | .functionExpression f => if f.id.isSome then [.functionName, .function] else [.function]
  | .functionDeclaration _ | .arrowFunctionExpression _ => [.function]
  | .classDeclaration _ | .classExpression _ => [.classBody]
  | _ => []

def programScopes (o : LanguageOptions) (sourceType : SourceType) : List ScopeKind :=
  .global :: ((if o.globalReturnFor sourceType then [.function] else []) ++
    if o.isModuleFor sourceType then [.module] else [])

/-- The kinds of the scopes that a node opens behind its early children, outermost first. -/
def ownScopes (t : Tree) (kind : NodeKind) : Role → List ScopeKind
  | .program o =>
    match kind with
    | .program _ sourceType => programScopes o sourceType
    | _ => []
  | .visited _ | .fieldValue _ | .loopHead .. => t.scopesOfKind kind
  | .functionBody _ =>
    match kind with
    | .blockStatement _ => []
    | _ => t.scopesOfKind kind
  | .skipped | .updated _ | .target .. | .declarator .. => []

/-- A field initializer is met outside a scope of its own. -/
def firstScopes : Role → List ScopeKind
  | .fieldValue _ => [.fieldInitializer]
  | _ => []

section Own

variable (t n)

theorem opensAt_declareAt (place : Place) (id : NodeId) (d : Definition) :
    Step.OpensAt n (t.declareAt place id d) [] := by
  refine .of_isStill fun step hstep => ?_
  unfold declareAt at hstep
  cases hname : t.identifierName? id with
  | none =>
    rw [hname] at hstep
    cases hstep
  | some name =>
    rw [hname] at hstep
    rw [List.mem_singleton.1 hstep]
    trivial

theorem opensAt_enterFunction (strict isArrow : Bool) :
    Step.OpensAt n (enterFunction n strict isArrow) [.function] := by
  have harguments : Step.OpensAt n
      (if isArrow then [] else [.declare .current "arguments" none] : Outline) [] := by
    refine .of_isStill fun step hstep => ?_
    cases isArrow with
    | true => cases hstep
    | false =>
      rw [List.mem_singleton.1 hstep]
      trivial
  exact (Step.OpensAt.enter n .function strict).append harguments

theorem opensAt_importSteps (specifiers : List NodeId) (importKind : ImportKind) :
    Step.OpensAt n (t.importSteps n specifiers importKind) [] := by
  refine .flatMap fun specifier _ => ?_
  split
  · exact t.opensAt_declareAt n _ _ _
  · exact .nil n

theorem opensAt_enterProgram (o : LanguageOptions) (sourceType : SourceType) :
    Step.OpensAt t.root (t.enterProgram o sourceType) (programScopes o sourceType) :=
  (Step.OpensAt.enter t.root .global _).append
    ((opensAt_enterFunction t.root _ false).ite.append (Step.OpensAt.enter t.root .module true).ite)

/-- A function opens the scope of its name, if that stands inside, and one for its parameters and
body. -/
theorem opensAt_functionLayout (c : Context) (kind : NodeKind) (hkind : kind.isFunction)
    (id : Option NodeId) (params : List NodeId) (body : Option NodeId) :
    Step.OpensAt n (t.functionLayout c n kind id params body).own (t.scopesOfKind kind) := by
  have henter (isArrow : Bool) :=
    opensAt_enterFunction n (c.inMethod || t.isStrictFunction kind) isArrow
  cases kind with
  | functionDeclaration f =>
    obtain ⟨id, _, _, _, _⟩ := f
    cases id with
    | none => exact (Step.OpensAt.nil n).append (henter _)
    | some id => exact (t.opensAt_declareAt n _ _ _).append (henter _)
  | functionExpression f =>
    obtain ⟨id, _, _, _, _⟩ := f
    cases id with
    | none => exact (Step.OpensAt.nil n).append (henter _)
    | some id =>
      exact ((Step.OpensAt.enter n .functionName false).append
        (t.opensAt_declareAt n _ _ _)).append (henter _)
  | arrowFunctionExpression f => exact (Step.OpensAt.nil n).append (henter _)
  | _ => cases hkind

theorem opensAt_classLayout (c : Context) (isDeclaration : Bool) (parts : Class) :
    Step.OpensAt n (t.classLayout c n isDeclaration parts).own [.classBody] := by
  have hnamed : Step.OpensAt n (parts.id.toList.flatMap fun id =>
      t.declareAt .current id { kind := .className, name := id, node := n }) [] :=
    .flatMap fun _ _ => t.opensAt_declareAt n _ _ _
  have houter : Step.OpensAt n (if isDeclaration then parts.id.toList.flatMap fun id =>
      t.declareAt .current id { kind := .className, name := id, node := n } else []) [] := by
    split
    · exact hnamed
    · exact .nil n
  exact houter.append ((Step.OpensAt.enter n .classBody true).append hnamed)

/-- A visited node opens the scopes of its kind at itself. -/
theorem opensAt_visitedLayout (c : Context) (kind : NodeKind) :
    Step.OpensAt n (t.visitedLayout c n kind).own (t.scopesOfKind kind) := by
  cases kind with
  | identifier | thisExpression =>
    refine .of_isStill fun step hstep => ?_
    rw [List.mem_singleton.1 hstep]
    trivial
  | staticBlock | blockStatement | switchStatement | withStatement | catchClause =>
    exact .enter n _ false
  | forStatement | forInStatement | forOfStatement => exact (Step.OpensAt.enter n _ false).ite
  | functionDeclaration f | functionExpression f | arrowFunctionExpression f =>
    exact t.opensAt_functionLayout n c _ rfl _ _ _
  | classDeclaration parts | classExpression parts => exact t.opensAt_classLayout n c _ parts
  | importDeclaration specifiers source importKind =>
    unfold visitedLayout
    dsimp only
    split
    · exact t.opensAt_importSteps n specifiers importKind
    · exact .of_isStill fun step hstep => List.mem_singleton.1 hstep ▸ trivial
  | exportNamedDeclaration declaration specifiers source =>
    cases source <;> cases declaration <;> exact .nil n
  | _ => exact .nil n

/-- The scopes that a node opens, by its role. -/
theorem opensAt_own {role : Role} (hroot : ∀ o, role = .program o → n = t.root) :
    Step.OpensAt n (t.layoutOfKind n kind role).own (t.ownScopes kind role) := by
  cases role with
  | program o =>
    cases kind with
    | program body sourceType =>
      rw [hroot o rfl]
      exact t.opensAt_enterProgram o sourceType
    | _ => exact .nil n
  | visited c | fieldValue c => exact t.opensAt_visitedLayout n c kind
  | functionBody c =>
    cases kind with
    | blockStatement statements => exact .nil n
    | _ => exact t.opensAt_visitedLayout n c _
  | loopHead c right =>
    cases kind with
    | variableDeclaration => exact .nil n
    | _ => exact t.opensAt_visitedLayout n c _
  | skipped => exact .nil n
  | updated writeExpr => exact .of_isStill (t.isStill_updateAt n writeExpr)
  | target c use root s => exact .of_isStill (isStill_targetLayout use root s n kind)
  | declarator c declaration variableKind index right => cases kind <;> exact .nil n

theorem opensAt_first (kind : NodeKind) (role : Role) :
    Step.OpensAt n (t.layoutOfKind n kind role).first (firstScopes role) := by
  rw [first_layoutOfKind]
  cases role with
  | fieldValue c => exact .enter n .fieldInitializer false
  | _ => exact .nil n

end Own

def openedScopes (t : Tree) (kind : NodeKind) (role : Role) : List ScopeKind :=
  firstScopes role ++ t.ownScopes kind role

theorem openedScopes_cases {motive : List ScopeKind → Prop} (t : Tree) (none : motive [])
    (program : ∀ o sourceType, motive (programScopes o sourceType))
    (visited : ∀ kind, motive (t.scopesOfKind kind))
    (fieldValue : ∀ kind, motive (.fieldInitializer :: t.scopesOfKind kind))
    (kind : NodeKind) (role : Role) : motive (t.openedScopes kind role) := by
  cases role with
  | program o =>
    unfold openedScopes ownScopes
    dsimp only
    split
    · exact program o _
    · exact none
  | fieldValue c => exact fieldValue kind
  | visited c | loopHead c right => exact visited kind
  | functionBody c =>
    unfold openedScopes ownScopes
    dsimp only
    split
    · exact none
    · exact visited kind
  | skipped | updated | target | declarator => exact none

/-- A node opens a kind of scope once. -/
theorem nodup_openedScopes (t : Tree) (kind : NodeKind) (role : Role) :
    (t.openedScopes kind role).Nodup := by
  have hvisited (kind : NodeKind) : (.fieldInitializer :: t.scopesOfKind kind).Nodup := by
    unfold scopesOfKind
    split <;> try split
    all_goals decide
  refine openedScopes_cases t List.nodup_nil ?_ (fun kind => (hvisited kind).of_cons) hvisited kind
    role
  intro o sourceType
  unfold programScopes
  split <;> split <;> decide

/-- The scope of a function's own name is never the innermost one. -/
theorem getLast?_openedScopes_ne (t : Tree) (kind : NodeKind) (role : Role) :
    (t.openedScopes kind role).getLast? ≠ some .functionName := by
  have hvisited (kind : NodeKind) : (t.scopesOfKind kind).getLast? ≠ some .functionName ∧
      (.fieldInitializer :: t.scopesOfKind kind).getLast? ≠ some .functionName := by
    unfold scopesOfKind
    split <;> try split
    all_goals decide
  refine openedScopes_cases (motive := fun kinds => kinds.getLast? ≠ some .functionName) t
    (by decide) ?_ (fun kind => (hvisited kind).1) (fun kind => (hvisited kind).2) kind role
  intro o sourceType
  unfold programScopes
  split <;> split <;> decide

end Tree

namespace NodeKind

/-- The child of a statement that stands outside the scope of the statement. -/
def head? : NodeKind → Option NodeId
  | switchStatement discriminant _ => some discriminant
  | withStatement object _ => some object
  | _ => none

theorem mem_children_of_head? {kind : NodeKind} {c : NodeId} (h : kind.head? = some c) :
    c ∈ kind.children := by
  cases kind with
  | switchStatement | withStatement =>
    obtain rfl := Option.some.inj h
    exact List.mem_cons_self ..
  | _ => cases h

end NodeKind

namespace Tree

variable {t : Tree} {n : NodeId} {kind : NodeKind}

theorem scopesOfKind_ne_nil {c : NodeId} (h : kind.head? = some c) :
    ∃ k, t.scopesOfKind kind = [k] ∧ k.holdsVars = false := by
  cases kind with
  | switchStatement | withStatement => exact ⟨_, rfl, rfl⟩
  | _ => cases h

/-- A statement with a head opens the scope of its kind or none. -/
theorem ownScopes_eq_of_head {role : Role} {c : NodeId} (h : kind.head? = some c)
    (hne : t.ownScopes kind role ≠ []) : t.ownScopes kind role = t.scopesOfKind kind := by
  cases role with
  | visited | fieldValue | loopHead => rfl
  | functionBody =>
    cases kind with
    | blockStatement => cases h
    | _ => rfl
  | program =>
    cases kind with
    | program => cases h
    | _ => exact absurd rfl hne
  | skipped | updated | target | declarator => exact absurd rfl hne

theorem ownScopes_of_head {role : Role} {c : NodeId} (h : kind.head? = some c)
    (hne : t.ownScopes kind role ≠ []) :
    ∃ k, t.ownScopes kind role = [k] ∧ k.holdsVars = false := by
  rw [ownScopes_eq_of_head h hne]
  exact scopesOfKind_ne_nil h

theorem ownScopes_ne_nil_of_head {role : Role} {c : NodeId} (h : kind.head? = some c)
    (hne : t.openedScopes kind role ≠ []) : t.ownScopes kind role ≠ [] := by
  intro hnil
  rw [openedScopes, hnil, List.append_nil] at hne
  cases role with
  | fieldValue c =>
    obtain ⟨k, hk, -⟩ := scopesOfKind_ne_nil (t := t) h
    rw [ownScopes, hk] at hnil
    cases hnil
  | _ => exact hne rfl

theorem early_visitedLayout (c : Context) (n : NodeId) (kind : NodeKind) :
    (t.visitedLayout c n kind).early = Role.visitAll c kind.head?.toList := by
  cases kind with
  | exportNamedDeclaration declaration specifiers source =>
    cases source <;> cases declaration <;> rfl
  | _ => rfl

/-- Only the head of a statement that opens a scope comes before the scope. -/
theorem early_layoutOfKind (n : NodeId) (kind : NodeKind) (role : Role) :
    ∃ c, (t.layoutOfKind n kind role).early =
      if t.ownScopes kind role = [] then [] else Role.visitAll c kind.head?.toList := by
  have hvisited (c : Context) (kind : NodeKind) :
      ∃ c', (t.visitedLayout c n kind).early =
        if t.scopesOfKind kind = [] then [] else Role.visitAll c' kind.head?.toList := by
    refine ⟨c, (early_visitedLayout c n kind).trans ?_⟩
    split
    · next hnil =>
      cases hhead : kind.head? with
      | none => rfl
      | some x =>
        obtain ⟨k, hk, -⟩ := scopesOfKind_ne_nil (t := t) hhead
        rw [hk] at hnil
        cases hnil
    · rfl
  cases role with
  | visited c | fieldValue c => exact hvisited c kind
  | functionBody c =>
    cases kind with
    | blockStatement statements => exact ⟨c, rfl⟩
    | _ => exact hvisited c _
  | loopHead c right =>
    cases kind with
    | variableDeclaration => exact ⟨c, rfl⟩
    | _ => exact hvisited c _
  | program o =>
    refine ⟨⟨false, false⟩, ?_⟩
    cases kind <;> simp [layoutOfKind, ownScopes, Role.visitAll, NodeKind.head?]
  | skipped | updated => exact ⟨⟨false, false⟩, rfl⟩
  | target c use root s => exact ⟨c, (early_targetLayout use root s n kind).2⟩
  | declarator c declaration variableKind index right => cases kind <;> exact ⟨c, rfl⟩

/-- How the role of a child stems from that of its parent. -/
inductive Stems (t : Tree) (n : NodeId) (kind : NodeKind) (role : Role) (x : NodeId) : Role → Prop
  | plain {r : Role} (howner : r.owner? = none) (hfirst : firstScopes r = [])
      (hprogram : ∀ o, r ≠ .program o) : Stems t n kind role x r
  | fieldValue {c : Context} {p : PropertyDefinition} (hkind : kind = .propertyDefinition p)
      (hvalue : p.value = some x) : Stems t n kind role x (.fieldValue c)
  /-- The targets of a pattern belong to the owner of the pattern. -/
  | passed {c : Context} {use : PatternUse} {root : NodeId} {s : Pattern.Surroundings}
      (howner : use.owner? = role.owner?) (hscope : use.scopeKind? = role.scopeKind?)
      (hfirst : firstScopes role = []) (hown : t.ownScopes kind role = []) :
      Stems t n kind role x (.target c use root s)
  | owned {r : Role} (howner : r.owner? = some n)
      (hlast : (t.ownScopes kind role).getLast? = r.scopeKind?)
      (hdeclaration : r.scopeKind? = none → ∃ variableKind declarations,
        kind = .variableDeclaration variableKind declarations) : Stems t n kind role x r

namespace Stems

variable {role r : Role} {x : NodeId} {c : Context}

theorem visited (c : Context) : Stems t n kind role x (.visited c) :=
  .plain rfl rfl fun _ h => nomatch h

theorem skipped : Stems t n kind role x .skipped :=
  .plain rfl rfl fun _ h => nomatch h

theorem updated (writeExpr : Option NodeId) : Stems t n kind role x (.updated writeExpr) :=
  .plain rfl rfl fun _ h => nomatch h

theorem functionBody (c : Context) : Stems t n kind role x (.functionBody c) :=
  .plain rfl rfl fun _ h => nomatch h

theorem assigned (c : Context) (node right : NodeId) (whole : Bool) (root : NodeId)
    (s : Pattern.Surroundings) :
    Stems t n kind role x (.target c (.assignment node right whole) root s) :=
  .plain rfl rfl fun _ h => nomatch h

theorem key (c : Context) (computed : Bool) : Stems t n kind role x (.key c computed) := by
  cases computed
  · exact skipped
  · exact visited c

theorem of_mem_map {α : Type} {l : List α} {f : α → NodeId × Role} (h : (x, r) ∈ l.map f)
    (hf : ∀ m ∈ l, (f m).1 = x → Stems t n kind role x (f m).2) : Stems t n kind role x r := by
  obtain ⟨m, hm, heq⟩ := List.mem_map.1 h
  have hstems := hf m hm (congrArg (·.1) heq)
  rwa [heq] at hstems

theorem of_mem_visitAll {nodes : List NodeId} (h : (x, r) ∈ Role.visitAll c nodes) :
    Stems t n kind role x r :=
  of_mem_map h fun _ _ _ => visited c

theorem of_mem_skipAll {nodes : List NodeId} (h : (x, r) ∈ Role.skipAll nodes) :
    Stems t n kind role x r :=
  of_mem_map h fun _ _ _ => skipped

theorem of_mem_cons {m : NodeId} {r' : Role} {slots : List (NodeId × Role)}
    (h : (x, r) ∈ (m, r') :: slots) (hhead : Stems t n kind role x r')
    (htail : (x, r) ∈ slots → Stems t n kind role x r) : Stems t n kind role x r := by
  rcases List.mem_cons.1 h with heq | h
  · rw [(Prod.mk.inj heq).2]
    exact hhead
  · exact htail h

theorem of_singleton {m : NodeId} {r' : Role} (h : (x, r) ∈ [(m, r')])
    (hstems : Stems t n kind role x r') : Stems t n kind role x r :=
  of_mem_cons h hstems fun h => absurd h List.not_mem_nil

theorem of_pair {m m' : NodeId} {r' r'' : Role} (h : (x, r) ∈ [(m, r'), (m', r'')])
    (hfirst : Stems t n kind role x r') (hsecond : Stems t n kind role x r'') :
    Stems t n kind role x r :=
  of_mem_cons h hfirst fun h => of_singleton h hsecond

/-- The children of a target are owned where the target is. -/
theorem of_targetLayout {use : PatternUse} {root : NodeId} {s : Pattern.Surroundings}
    (h : (x, r) ∈ (targetLayout c use root s n kind).slots) :
    Stems t n kind (.target c use root s) x r := by
  have hpassed (s' : Pattern.Surroundings) :
      Stems t n kind (.target c use root s) x (.target c use root s') := .passed rfl rfl rfl rfl
  unfold targetLayout at h
  dsimp only at h
  split at h
  case h_1 name => cases h
  case h_2 p => exact of_pair h (key c _) (hpassed s)
  case h_3 left right | h_4 left right => exact of_pair h (hpassed _) (visited c)
  case h_5 argument => exact of_singleton h (hpassed _)
  case h_6 object key computed _ => exact of_pair h (visited c) (Stems.key c _)
  case h_7 callee arguments _ => exact of_mem_cons h (hpassed s) of_mem_visitAll
  case h_8 => exact of_mem_map h fun _ _ _ => hpassed s

theorem of_functionLayout (hlast : (t.ownScopes kind role).getLast? = some .function)
    {id : Option NodeId} {params : List NodeId} {body : Option NodeId}
    (h : (x, r) ∈ (t.functionLayout c n kind id params body).slots) :
    Stems t n kind role x r := by
  simp only [Layout.slots, functionLayout, List.nil_append] at h
  rcases List.mem_append.1 h with h | h
  · rcases List.mem_append.1 h with h | h
    · exact of_mem_skipAll h
    · exact of_mem_map h fun _ _ _ => .owned rfl hlast fun h => absurd h (Option.some_ne_none _)
  · exact of_mem_map h fun _ _ _ => functionBody _

theorem of_classLayout {isDeclaration : Bool} {parts : Class}
    (h : (x, r) ∈ (t.classLayout c n isDeclaration parts).slots) : Stems t n kind role x r := by
  simp only [Layout.slots, classLayout, List.nil_append] at h
  exact (List.mem_append.1 h).elim of_mem_skipAll of_mem_visitAll

theorem of_loopLayout {left right body : NodeId}
    (h : (x, r) ∈ (t.loopLayout c n left right body).slots) : Stems t n kind role x r := by
  refine of_mem_cons h ?_ fun h => of_pair h (visited c) (visited c)
  split
  · exact .plain rfl rfl fun _ h => nomatch h
  · exact assigned ..

theorem of_assignment {operator : AssignmentOperator} {left right : NodeId} :
    Stems t n kind role x (t.assignedRole c n operator left right) := by
  unfold assignedRole
  split
  · split
    · exact assigned ..
    · exact .plain rfl rfl fun _ h => nomatch h
  · exact visited c

/-- The children of a visited node are owned by the node or by nobody. -/
theorem of_visitedLayout (c : Context) (hown : t.ownScopes kind role = t.scopesOfKind kind)
    (h : (x, r) ∈ (t.visitedLayout c n kind).slots) : Stems t n kind role x r := by
  cases kind with
  | functionDeclaration f | arrowFunctionExpression f => exact of_functionLayout (hown ▸ rfl) h
  | functionExpression f =>
    refine of_functionLayout ?_ h
    rw [hown, scopesOfKind]
    split <;> rfl
  | classDeclaration parts | classExpression parts => exact of_classLayout h
  | forInStatement | forOfStatement => exact of_loopLayout h
  | catchClause param body =>
    simp only [Layout.slots, visitedLayout, List.nil_append] at h
    rcases List.mem_append.1 h with h | h
    · exact of_mem_map h fun _ _ _ =>
        .owned rfl (hown ▸ rfl) fun h => absurd h (Option.some_ne_none _)
    · exact of_singleton h (visited c)
  | variableDeclaration variableKind declarations =>
    exact of_mem_map h fun _ _ _ => .owned rfl (hown ▸ rfl) fun _ => ⟨_, _, rfl⟩
  | propertyDefinition p =>
    refine of_mem_cons h (key c _) fun h => of_mem_map h fun m hm hx => ?_
    exact .fieldValue rfl (hx ▸ Option.mem_toList.1 hm)
  | exportNamedDeclaration declaration specifiers source =>
    cases source with
    | some source => exact of_mem_skipAll h
    | none =>
      cases declaration with
      | none => exact of_mem_visitAll h
      | some declaration => exact of_mem_cons h (visited c) of_mem_skipAll
  | assignmentExpression operator left right => exact of_pair h of_assignment (visited c)
  | updateExpression operator isPrefix argument =>
    refine of_singleton h ?_
    split
    · exact updated _
    · exact visited c
  | memberExpression object key computed _ => exact of_pair h (visited c) (Stems.key c _)
  | property p => exact of_pair h (key c _) (visited c)
  | methodDefinition m => exact of_pair h (key c _) (visited _)
  | labeledStatement label body => exact of_pair h skipped (visited c)
  | exportSpecifier localName exported => exact of_pair h skipped (visited c)
  | switchStatement discriminant cases => exact of_mem_cons h (visited c) of_mem_visitAll
  | withStatement object body => exact of_pair h (visited c) (visited c)
  | metaProperty | breakStatement | continueStatement | exportAllDeclaration
  | importDeclaration => exact of_mem_skipAll h
  | identifier | thisExpression => cases h
  | _ => exact of_mem_visitAll h

end Stems

/-- The roles of the children of a node. -/
theorem stems_of_slot {role r : Role} {x : NodeId}
    (h : (x, r) ∈ (t.layoutOfKind n kind role).slots) : Stems t n kind role x r := by
  cases role with
  | visited c | fieldValue c => exact .of_visitedLayout c rfl h
  | functionBody c =>
    cases kind with
    | blockStatement statements => exact .of_mem_visitAll h
    | _ => exact .of_visitedLayout c rfl h
  | loopHead c right =>
    cases kind with
    | variableDeclaration variableKind declarations =>
      exact .of_mem_map h fun _ _ _ => .owned rfl rfl fun _ => ⟨_, _, rfl⟩
    | _ => exact .of_visitedLayout c rfl h
  | program o =>
    cases kind with
    | program body sourceType => exact .of_mem_visitAll h
    | _ => exact .of_mem_skipAll h
  | skipped | updated => exact .of_mem_skipAll h
  | target c use root s => exact .of_targetLayout h
  | declarator c declaration variableKind index right =>
    cases kind with
    | variableDeclarator id init =>
      exact .of_mem_cons h (.passed rfl rfl rfl rfl) .of_mem_visitAll
    | _ => exact .of_mem_skipAll h

end Tree

end LexicalScope
