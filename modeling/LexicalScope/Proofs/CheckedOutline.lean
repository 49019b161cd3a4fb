import LexicalScope.Proofs.Grounding

/-!
Looking up nodes with a check. The outline of a program is taken down once more, now by look-ups
that stop everything at a node that is not there. They never stop: a walk starts at the root and
only goes from a node to its children, which stand before it. So the outline is that of the walk
without checks, and it depends on what the look-ups find and on nothing else.
-/
namespace LexicalScope

namespace Checked

/-- The steps at each element, as long as no look-up fails. -/
def gather {α : Type} (l : List α) (f : α → Option Outline) : Option Outline :=
  (l.mapM f).map List.flatten

def isUseStrict : String × Option String → Bool
  | (_, some raw) => raw = "\"use strict\"" || raw = "'use strict'"
  | (value, none) => value = "use strict"

section Definitions

/- How a node is looked up; a node that is not there stops the walk. -/
variable (look : NodeId → Option NodeKind)

def prologue : List NodeId → Option (List (String × Option String))
  | [] => some []
  | statement :: statements => do
    match ← look statement with
    | .expressionStatement expression _ =>
      match ← look expression with
      | .literal (.string value) raw => return (value, raw) :: (← prologue statements)
      | _ => return []
    | _ => return []

def hasUseStrict (body : NodeId) : Option Bool := do
  match ← look body with
  | .program statements _ | .blockStatement statements =>
    return (← prologue look statements).any isUseStrict
  | _ => return false

def isStrictFunction : NodeKind → Option Bool
  | .arrowFunctionExpression { expression := true, .. } => some false
  | kind => kind.functionBody?.elim (some false) (hasUseStrict look)

def patternOfKind (root : NodeId) (walk : Pattern.Surroundings → NodeId → Option Pattern)
    (s : Pattern.Surroundings) (n : NodeId) : NodeKind → Option Pattern
  | .identifier name =>
    some { targets := [{
      identifier := n
      name
      topLevel := n = root
      rest := s.restArgument = some n
      defaults := s.defaults }] }
  | .property p =>
    (walk s p.value).map ({ rightHand := if p.computed then [p.key] else [] } ++ ·)
  | .assignmentPattern left right | .assignmentExpression _ left right =>
    (walk { s with defaults := s.defaults ++ [⟨n, left, right⟩] } left).map
      (· ++ { rightHand := [right] })
  | .restElement argument => walk { s with restArgument := some argument } argument
  | .memberExpression object key computed _ =>
    some { rightHand := if computed then [key, object] else [object] }
  | .callExpression callee arguments _ => (walk s callee).map ({ rightHand := arguments } ++ ·)
  | kind => (kind.children.mapM (walk s)).map Pattern.join

def patternWithin (root : NodeId) : Nat → Pattern.Surroundings → NodeId → Option Pattern
  | 0, _, _ => some {}
  | fuel + 1, s, n => do patternOfKind root (patternWithin root fuel) s n (← look n)

def pattern (root : NodeId) : Option Pattern :=
  patternWithin look root (root.index + 1) {} root

def declareAt (place : Place) (id : NodeId) (definition : Definition) : Outline :=
  ((look id).bind NodeKind.identifierName?).elim [] fun name =>
    [.declare place name (some definition)]

def updateAt (n : NodeId) (writeExpr : Option NodeId) : Outline :=
  ((look n).bind NodeKind.identifierName?).elim [] fun name =>
    [.refer { identifier := n, name, access := .readWrite, writeExpr }]

def patternSteps (visit : NodeId → Option Outline) (n : NodeId)
    (target : PatternTarget → Outline) : Option Outline := do
  let p ← pattern look n
  return p.targets.flatMap target ++ (← gather p.rightHand visit)

def assignSteps (visit : NodeId → Option Outline) (assignment left right : NodeId)
    (whole : Bool) : Option Outline :=
  patternSteps look visit left fun x =>
    x.defaultWrites false (some assignment) ++
      [x.write right (whole && x.topLevel) false (some assignment)]

def declaratorSteps (visit : NodeId → Option Outline) (declaration declarator : NodeId)
    (kind : VariableKind) (index : Nat) : Option Outline := do
  match ← look declarator with
  | .variableDeclarator id init =>
    let place := if kind = .varDecl then .variableScope else .current
    let bindings ← patternSteps look visit id fun x =>
      x.declare place (.ofDeclarator x.identifier declarator declaration index kind) ++
        init.toList.map fun e => x.write e x.topLevel true none
    return bindings ++ (← gather init.toList visit)
  | _ => return []

def loopDeclarationWrites (declarations : List NodeId) (right : NodeId) : Option Outline :=
  match declarations with
  | [] => some []
  | declarator :: _ => do
    match ← look declarator with
    | .variableDeclarator id _ =>
      return (← pattern look id).targets.map fun x => x.write right false true none
    | _ => return []

def loopSteps (visit : NodeId → Option Outline) (n left right body : NodeId) :
    Option Outline := do
  let head ←
    match ← look left with
    | .variableDeclaration kind declarations => do
      let declared ← visit left
      let written ← loopDeclarationWrites look declarations right
      pure ((if kind = .varDecl then [] else [.enter .forLoop n false]) ++ declared ++ written)
    | _ => assignSteps look visit n left right false
  return head ++ (← visit right) ++ (← visit body) ++ [.leave n]

def catchSteps (visit : NodeId → Option Outline) (n : NodeId) (param : Option NodeId)
    (body : NodeId) : Option Outline := do
  let bindings ← gather param.toList fun p =>
    patternSteps look visit p fun x =>
      x.declare .current { kind := .catchClause, name := x.identifier, node := n }
  return .enter .catchClause n false :: bindings ++ (← visit body) ++ [.leave n]

def functionNameSteps (n : NodeId) : NodeKind → Outline
  | .functionDeclaration { id := some id, .. } =>
    declareAt look .current id { kind := .functionName, name := id, node := n }
  | .functionExpression { id := some id, .. } =>
    .enter .functionName n false ::
      declareAt look .current id { kind := .functionName, name := id, node := n }
  | _ => []

def functionSteps (visit : NodeId → Option Outline) (c : Context) (n : NodeId)
    (kind : NodeKind) : Option Outline := do
  let isArrow := kind matches .arrowFunctionExpression _
  let strict ← isStrictFunction look kind
  let params ← gather (kind.functionParams?.getD []).zipIdx fun (param, index) =>
    patternSteps look visit param fun x =>
      x.declare .current (.ofParameter x.identifier n index x.rest)
  let body ← gather kind.functionBody?.toList fun body => do
    match ← look body with
    | .blockStatement statements => gather statements visit
    | _ => visit body
  return functionNameSteps look n kind ++ Tree.enterFunction n (c.inMethod || strict) isArrow ++
    params ++ body ++ [.leave n]

def classSteps (visit : NodeId → Option Outline) (n : NodeId) (isDeclaration : Bool)
    (c : Class) : Option Outline := do
  let named := c.id.toList.flatMap fun id =>
    declareAt look .current id { kind := .className, name := id, node := n }
  let superClass ← gather c.superClass.toList visit
  return (if isDeclaration then named else []) ++ .enter .classBody n true :: named ++
    superClass ++ (← visit c.body) ++ [.leave n]

def importSteps (n : NodeId) (specifiers : List NodeId) (kind : ImportKind) : Option Outline :=
  gather specifiers fun specifier => do
    match Tree.importedBinding? (← look specifier) with
    | some (localName, typeOnly) =>
      return declareAt look .current localName {
        kind := .importBinding
        name := localName
        node := specifier
        parent := some n
        typeOnly := typeOnly || kind = .type }
    | none => return []

def declaresLexically : Option NodeId → Option Bool
  | none => some false
  | some head => do
    match ← look head with
    | .variableDeclaration kind _ => return kind ≠ .varDecl
    | _ => return false

def stepsOfKind (visitIn : Context → NodeId → Option Outline) (c : Context) (n : NodeId)
    (kind : NodeKind) : Option Outline :=
  let visit := visitIn c
  let visitAll := fun nodes => gather nodes visit
  let visitIf := fun (condition : Bool) m => if condition then visit m else some []
  match kind with
  | .identifier name => some [.refer { identifier := n, name, access := .read }]
  | .privateIdentifier _ | .superExpression | .metaProperty .. => some []
  | .breakStatement _ | .continueStatement _ | .exportAllDeclaration .. => some []
  | .thisExpression => some [.this]
  | .assignmentExpression operator left right => do
    let target ←
      if (← look left).isPattern then
        if operator = .assign then assignSteps look visit n left right true
        else some (updateAt look left (some right))
      else visit left
    return target ++ (← visit right)
  | .updateExpression _ _ argument => do
    if (← look argument).isPattern then some (updateAt look argument none) else visit argument
  | .memberExpression object key computed _ => do
    return (← visit object) ++ (← visitIf computed key)
  | .property p => do return (← visitIf p.computed p.key) ++ (← visit p.value)
  | .methodDefinition m => do
    return (← visitIf m.computed m.key) ++ (← visitIn { c with inMethod := true } m.value)
  | .propertyDefinition p => do
    let value ← gather p.value.toList fun value => do
      return .enter .fieldInitializer value false :: (← visit value) ++ [.leave value]
    return (← visitIf p.computed p.key) ++ value
  | .staticBlock body => do
    return .enter .staticBlock n false :: (← visitAll body) ++ [.leave n]
  | .labeledStatement _ body => visit body
  | .blockStatement body => do
    return .enter .block n false :: (← visitAll body) ++ [.leave n]
  | .forStatement start _ _ _ => do
    let isLexical ← declaresLexically look start
    return (if isLexical then [.enter .forLoop n false] else []) ++ (← visitAll kind.children) ++
      [.leave n]
  | .forInStatement left right body | .forOfStatement left right body _ =>
    loopSteps look visit n left right body
  | .switchStatement discriminant cases => do
    return (← visit discriminant) ++ .enter .switchBody n false :: (← visitAll cases) ++ [.leave n]
  | .withStatement object body => do
    return (← visit object) ++ .enter .withBody n false :: (← visit body) ++ [.leave n]
  | .catchClause param body => catchSteps look visit n param body
  | .variableDeclaration kind declarations =>
    gather declarations.zipIdx fun (declarator, index) =>
      declaratorSteps look visit n declarator kind index
  | .functionDeclaration _ | .functionExpression _ | .arrowFunctionExpression _ =>
    functionSteps look visit c n kind
  | .classDeclaration parts => classSteps look visit n true parts
  | .classExpression parts => classSteps look visit n false parts
  | .importDeclaration specifiers _ kind =>
    if c.isModule then importSteps look n specifiers kind else some [.misplacedImport n]
  | .exportNamedDeclaration declaration _ source =>
    match source, declaration with
    | some _, _ => some []
    | none, some declaration => visit declaration
    | none, none => visitAll kind.children
  | .exportSpecifier localName _ => visit localName
  | _ => visitAll kind.children

def stepsWithin : Nat → Context → NodeId → Option Outline
  | 0, _, _ => some []
  | fuel + 1, c, n => do stepsOfKind look (stepsWithin fuel) c n (← look n)

def steps (c : Context) (n : NodeId) : Option Outline :=
  stepsWithin look (n.index + 1) c n

def enterProgram (root : NodeId) (o : LanguageOptions) (sourceType : SourceType) :
    Option Outline := do
  let wrapped := o.globalReturnFor sourceType
  let isModule := o.isModuleFor sourceType
  let useStrict ← hasUseStrict look root
  let strict := fun isInnermost own => own || (isInnermost && o.impliedStrict)
  return .enter .global root (strict (!wrapped && !isModule) (!wrapped && useStrict)) ::
    ((if wrapped then Tree.enterFunction root (strict (!isModule) useStrict) false else []) ++
      if isModule then [.enter .module root true] else [])

/-- The outline of the program at `root`, or what stands there in place of a program. -/
def outline (root : NodeId) (o : LanguageOptions) : Option (Except NodeKind Outline) := do
  match ← look root with
  | .program body sourceType =>
    let entered ← enterProgram look root o sourceType
    let inside ← gather body (steps look { isModule := o.isModuleFor sourceType })
    return .ok (entered ++ inside ++ [.leave root])
  | kind => return .error kind

end Definitions

section Combine

variable {α β : Type}

/-- Look-ups that all succeed make a plain map. -/
theorem mapM_eq_some {l : List α} {f : α → Option β} {f' : α → β} (h : ∀ x ∈ l, f x = some (f' x)) :
    l.mapM f = some (l.map f') := by
  induction l with
  | nil => rfl
  | cons x l ih =>
    rw [List.mapM_cons, h x (List.mem_cons_self ..), ih fun y hy => h y (List.mem_cons_of_mem _ hy)]
    rfl

theorem gather_eq_some {l : List α} {f : α → Option Outline} {f' : α → Outline}
    (h : ∀ x ∈ l, f x = some (f' x)) : gather l f = some (l.flatMap f') := by
  rw [gather, mapM_eq_some h]
  rfl

end Combine

section Agreement

variable {t : Tree} {n m : NodeId} {kind : NodeKind}

theorem exists_kind? (hn : t.contains n) : ∃ kind, t.kind? n = some kind :=
  ⟨_, Tree.kind?_eq_some_iff.2 ⟨of_decide_eq_true hn, rfl⟩⟩

theorem prologue_eq {statements : List NodeId} (hstatements : ∀ m ∈ statements, t.contains m) :
    prologue t.kind? statements = some (t.prologue statements) := by
  induction statements with
  | nil => rfl
  | cons statement statements ih =>
    obtain ⟨hstatement, hrest⟩ := List.forall_mem_cons.1 hstatements
    obtain ⟨kind, hkind⟩ := exists_kind? hstatement
    rw [prologue, hkind, Tree.prologue, List.map_cons, hkind]
    cases kind with
    | expressionStatement expression directive =>
      obtain ⟨kind, hliteral⟩ := exists_kind?
        (Tree.contains_of_mem_children hkind (List.mem_singleton_self expression))
      simp only [hliteral, Option.bind_eq_bind, Option.bind_some, ih hrest]
      cases kind with
      | literal value raw => cases value <;> rfl
      | _ => rfl
    | _ => rfl

theorem hasUseStrict_eq {body : NodeId} (hbody : t.contains body) :
    hasUseStrict t.kind? body = some (t.hasUseStrict body) := by
  obtain ⟨kind, hkind⟩ := exists_kind? hbody
  rw [hasUseStrict, Tree.hasUseStrict, hkind]
  cases kind with
  | program statements _ | blockStatement statements =>
    have hprologue : prologue t.kind? statements = some (t.prologue statements) :=
      prologue_eq fun m hm => Tree.contains_of_mem_children hkind hm
    simp only [Option.bind_eq_bind, Option.bind_some, hprologue]
    rfl
  | _ => rfl

theorem isStrictFunction_eq (hkind : t.kind? n = some kind) :
    isStrictFunction t.kind? kind = some (t.isStrictFunction kind) := by
  have hbody : kind.functionBody?.elim (some false) (hasUseStrict t.kind?) =
      some (kind.functionBody?.any t.hasUseStrict) := by
    cases hbody : kind.functionBody? with
    | none => rfl
    | some body =>
      exact hasUseStrict_eq (Tree.contains_of_mem_children hkind
        (NodeKind.mem_children_of_functionBody? hbody))
  cases kind with
  | arrowFunctionExpression f =>
    obtain ⟨params, body, expression, isAsync⟩ := f
    cases expression with
    | true => rfl
    | false => exact hbody
  | _ => exact hbody

section Pattern

variable {root : NodeId} {walk' : Pattern.Surroundings → NodeId → Option Pattern}
  {walk : Pattern.Surroundings → NodeId → Pattern}

theorem patternOfKind_eq (s : Pattern.Surroundings)
    (hwalk : ∀ s, ∀ m ∈ kind.children, walk' s m = some (walk s m)) :
    patternOfKind root walk' s n kind = some (Pattern.ofKind root walk s n kind) := by
  cases kind with
  | identifier | memberExpression => rfl
  | property p =>
    rw [patternOfKind, hwalk s p.value (by simp [NodeKind.children])]
    rfl
  | assignmentPattern left right | assignmentExpression operator left right =>
    rw [patternOfKind, hwalk _ left (by simp [NodeKind.children])]
    rfl
  | restElement argument => exact hwalk _ argument (List.mem_singleton_self _)
  | callExpression callee arguments _ =>
    rw [patternOfKind, hwalk s callee (List.mem_cons_self ..)]
    rfl
  | _ => exact congrArg (Option.map Pattern.join) (mapM_eq_some (hwalk s))

/-- The walk over a pattern looks up nodes of the tree only. -/
theorem patternWithin_eq (root : NodeId) (fuel : Nat) (s : Pattern.Surroundings)
    (hn : t.contains n) :
    patternWithin t.kind? root fuel s n = some (Pattern.walkWithin t root fuel s n) := by
  induction fuel generalizing s n with
  | zero => rfl
  | succ fuel ih =>
    obtain ⟨kind, hkind⟩ := exists_kind? hn
    rw [patternWithin, Pattern.walkWithin, hkind]
    exact patternOfKind_eq s fun s m hm => ih s (Tree.contains_of_mem_children hkind hm)

theorem pattern_eq (hn : t.contains n) : pattern t.kind? n = some (t.pattern n) :=
  patternWithin_eq n _ {} hn

theorem contains_of_mem_rightHand (hn : t.contains n) (hm : m ∈ (t.pattern n).rightHand) :
    t.contains m :=
  decide_eq_true (Nat.lt_trans (Pattern.index_lt_of_mem_rightHand hm) (of_decide_eq_true hn))

end Pattern

section Steps

variable {visit' : NodeId → Option Outline} {visit : NodeId → Outline}
  (hvisit : ∀ m, t.contains m → visit' m = some (visit m))
include hvisit

theorem gather_visit {nodes : List NodeId} (hnodes : ∀ m ∈ nodes, t.contains m) :
    gather nodes visit' = some (nodes.flatMap visit) :=
  gather_eq_some fun m hm => hvisit m (hnodes m hm)

theorem patternSteps_eq (hn : t.contains n) (target : PatternTarget → Outline) :
    patternSteps t.kind? visit' n target = some (t.patternSteps visit n target) := by
  simp only [patternSteps, pattern_eq hn, Option.bind_eq_bind, Option.bind_some,
    gather_visit hvisit fun m hm => contains_of_mem_rightHand hn hm]
  rfl

theorem assignSteps_eq {left : NodeId} (hleft : t.contains left) (assignment right : NodeId)
    (whole : Bool) :
    assignSteps t.kind? visit' assignment left right whole =
      some (t.assignSteps visit assignment left right whole) :=
  patternSteps_eq hvisit hleft _

theorem declaratorSteps_eq {declarator : NodeId} (hdeclarator : t.contains declarator)
    (declaration : NodeId) (kind : VariableKind) (index : Nat) :
    declaratorSteps t.kind? visit' declaration declarator kind index =
      some (t.declaratorSteps visit declaration declarator kind index) := by
  obtain ⟨found, hfound⟩ := exists_kind? hdeclarator
  rw [declaratorSteps, Tree.declaratorSteps, hfound]
  cases found with
  | variableDeclarator id init =>
    have hid := Tree.contains_of_mem_children hfound (List.mem_cons_self ..)
    have hinit (m : NodeId) (hm : m ∈ init.toList) : t.contains m :=
      Tree.contains_of_mem_children hfound (List.mem_cons_of_mem _ hm)
    simp only [Option.bind_eq_bind, Option.bind_some, patternSteps_eq hvisit hid,
      gather_visit hvisit hinit]
    rfl
  | _ => rfl

omit hvisit in
/-- A loop head looks up its declarators, which belong to the tree. -/
theorem loopDeclarationWrites_eq {declarations : List NodeId}
    (hdeclarations : ∀ m ∈ declarations, t.contains m) (right : NodeId) :
    loopDeclarationWrites t.kind? declarations right =
      some (t.loopDeclarationWrites declarations right) := by
  cases declarations with
  | nil => rfl
  | cons declarator declarations =>
    obtain ⟨kind, hkind⟩ := exists_kind? (hdeclarations declarator (List.mem_cons_self ..))
    rw [loopDeclarationWrites, Tree.loopDeclarationWrites, List.head?_cons, Option.bind_some, hkind]
    cases kind with
    | variableDeclarator id init =>
      simp only [Option.bind_eq_bind, Option.bind_some,
        pattern_eq (Tree.contains_of_mem_children hkind (List.mem_cons_self ..))]
      rfl
    | _ => rfl

theorem loopSteps_eq {left right body : NodeId} (hleft : t.contains left)
    (hright : t.contains right) (hbody : t.contains body) (n : NodeId) :
    loopSteps t.kind? visit' n left right body = some (t.loopSteps visit n left right body) := by
  obtain ⟨kind, hkind⟩ := exists_kind? hleft
  rw [loopSteps, Tree.loopSteps, hkind]
  cases kind with
  | variableDeclaration kind declarations =>
    have hwrites : loopDeclarationWrites t.kind? declarations right =
        some (t.loopDeclarationWrites declarations right) :=
      loopDeclarationWrites_eq (fun m hm => Tree.contains_of_mem_children hkind hm) right
    simp only [Option.bind_eq_bind, Option.bind_some, hvisit left hleft, hvisit right hright,
      hvisit body hbody, hwrites]
    rfl
  | _ =>
    simp only [Option.bind_eq_bind, Option.bind_some, assignSteps_eq hvisit hleft,
      hvisit right hright, hvisit body hbody]
    rfl

theorem catchSteps_eq {param : Option NodeId} {body : NodeId}
    (hparam : ∀ m ∈ param.toList, t.contains m) (hbody : t.contains body) (n : NodeId) :
    catchSteps t.kind? visit' n param body = some (t.catchSteps visit n param body) := by
  simp only [catchSteps, gather_eq_some fun p hp => patternSteps_eq hvisit (hparam p hp) _,
    Option.bind_eq_bind, Option.bind_some, hvisit body hbody]
  rfl

/-- The statements of a block as a function body are visited one by one. -/
theorem gather_functionBody (hkind : t.kind? n = some kind) :
    gather kind.functionBody?.toList (fun body => do
      match ← t.kind? body with
      | .blockStatement statements => gather statements visit'
      | _ => visit' body) =
    some (kind.functionBody?.toList.flatMap fun body =>
      match t.kind? body with
      | some (.blockStatement statements) => statements.flatMap visit
      | _ => visit body) := by
  refine gather_eq_some fun body hbody => ?_
  have hbody := Tree.contains_of_mem_children hkind
    (NodeKind.mem_children_of_functionBody? (Option.mem_toList.1 hbody))
  obtain ⟨found, hfound⟩ := exists_kind? hbody
  rw [hfound, Option.bind_eq_bind, Option.bind_some]
  cases found with
  | blockStatement statements =>
    exact gather_visit hvisit fun m hm => Tree.contains_of_mem_children hfound hm
  | _ => exact hvisit body hbody

theorem functionSteps_eq (hkind : t.kind? n = some kind) (c : Context) :
    functionSteps t.kind? visit' c n kind = some (t.functionSteps visit c n kind) := by
  have hparams : gather (kind.functionParams?.getD []).zipIdx (fun (param, index) =>
      patternSteps t.kind? visit' param fun x =>
        x.declare .current (.ofParameter x.identifier n index x.rest)) =
      some ((kind.functionParams?.getD []).zipIdx.flatMap fun (param, index) =>
        t.patternSteps visit param fun x =>
          x.declare .current (.ofParameter x.identifier n index x.rest)) := by
    refine gather_eq_some fun x hx => patternSteps_eq hvisit ?_ _
    have hparam := (List.mem_zipIdx' hx).2 ▸ List.getElem_mem _
    exact Tree.contains_of_mem_children hkind (NodeKind.mem_children_of_functionParams? hparam)
  unfold functionSteps
  rw [isStrictFunction_eq hkind, Option.bind_eq_bind, Option.bind_some, hparams,
    Option.bind_eq_bind, Option.bind_some, gather_functionBody hvisit hkind]
  rfl

theorem classSteps_eq {c : Class} (hclass : ∀ m ∈ c.superClass.toList ++ [c.body], t.contains m)
    (n : NodeId) (isDeclaration : Bool) :
    classSteps t.kind? visit' n isDeclaration c = some (t.classSteps visit n isDeclaration c) := by
  obtain ⟨hsuper, hbody⟩ := List.forall_mem_append.1 hclass
  simp only [classSteps, gather_visit hvisit hsuper, Option.bind_eq_bind, Option.bind_some,
    hvisit c.body (hbody _ (List.mem_singleton_self _))]
  rfl

omit hvisit in
theorem importSteps_eq {specifiers : List NodeId} (hspecifiers : ∀ m ∈ specifiers, t.contains m)
    (n : NodeId) (kind : ImportKind) :
    importSteps t.kind? n specifiers kind = some (t.importSteps n specifiers kind) := by
  refine gather_eq_some fun specifier hspecifier => ?_
  obtain ⟨found, hfound⟩ := exists_kind? (hspecifiers specifier hspecifier)
  simp only [hfound, Option.bind_eq_bind, Option.bind_some]
  cases Tree.importedBinding? found <;> rfl

end Steps

theorem declaresLexically_eq {start : Option NodeId} (hstart : ∀ m ∈ start, t.contains m) :
    declaresLexically t.kind? start = some
      (match start.bind t.kind? with
      | some (.variableDeclaration kind _) => kind ≠ .varDecl
      | _ => false) := by
  cases start with
  | none => rfl
  | some head =>
    obtain ⟨kind, hkind⟩ := exists_kind? (hstart head rfl)
    rw [declaresLexically, hkind, Option.bind_some, hkind]
    cases kind <;> rfl

section Visit

variable {visitIn' : Context → NodeId → Option Outline} {visitIn : Context → NodeId → Outline}
  (hvisit : ∀ c m, t.contains m → visitIn' c m = some (visitIn c m))
include hvisit

/-- One case for each kind of node with rules of its own. -/
theorem stepsOfKind_eq (hkind : t.kind? n = some kind) (c : Context) :
    stepsOfKind t.kind? visitIn' c n kind = some (t.stepsOfKind visitIn c n kind) := by
  have hchild {m : NodeId} (hm : m ∈ kind.children) := Tree.contains_of_mem_children hkind hm
  have hnode {m : NodeId} (hm : m ∈ kind.children) := hvisit c m (hchild hm)
  have hvisitIf {m : NodeId} (condition : Bool) (hm : m ∈ kind.children) :
      (if condition then visitIn' c m else some []) =
        some (if condition then visitIn c m else []) := by
    cases condition with
    | true => exact hnode hm
    | false => rfl
  have hlist {nodes : List NodeId} (hnodes : nodes ⊆ kind.children) :
      gather nodes (visitIn' c) = some (nodes.flatMap (visitIn c)) :=
    gather_visit (hvisit c) fun m hm => hchild (hnodes hm)
  cases kind with
  | identifier | privateIdentifier | superExpression | metaProperty | breakStatement
  | continueStatement | exportAllDeclaration | thisExpression => rfl
  | assignmentExpression operator left right =>
    obtain ⟨found, hfound⟩ := exists_kind? (hchild (m := left) (by simp [NodeKind.children]))
    have hleft := Tree.contains_of_kind? hfound
    simp only [stepsOfKind, Tree.stepsOfKind, Tree.isPattern, hfound, Option.any_some,
      Option.bind_eq_bind, Option.bind_some, assignSteps_eq (hvisit c) hleft, hvisit c left hleft,
      hnode (m := right) (by simp [NodeKind.children])]
    split
    · split <;> rfl
    · rfl
  | updateExpression operator isPrefix argument =>
    obtain ⟨found, hfound⟩ := exists_kind? (hchild (m := argument) (List.mem_singleton_self _))
    simp only [stepsOfKind, Tree.stepsOfKind, Tree.isPattern, hfound, Option.any_some,
      Option.bind_eq_bind, Option.bind_some, hnode (m := argument) (List.mem_singleton_self _)]
    split <;> rfl
  | memberExpression object key computed _ =>
    simp only [stepsOfKind, Option.bind_eq_bind, Option.bind_some,
      hnode (m := object) (by simp [NodeKind.children]),
      hvisitIf (m := key) computed (by simp [NodeKind.children])]
    rfl
  | property p =>
    simp only [stepsOfKind, Option.bind_eq_bind, Option.bind_some,
      hvisitIf (m := p.key) p.computed (by simp [NodeKind.children]),
      hnode (m := p.value) (by simp [NodeKind.children])]
    rfl
  | methodDefinition m =>
    simp only [stepsOfKind, Option.bind_eq_bind, Option.bind_some,
      hvisitIf (m := m.key) m.computed (by simp [NodeKind.children]),
      hvisit _ m.value (hchild (by simp [NodeKind.children]))]
    rfl
  | propertyDefinition p =>
    have hvalue : gather p.value.toList (fun value => do
          return .enter .fieldInitializer value false :: (← visitIn' c value) ++ [.leave value]) =
        some (p.value.toList.flatMap fun value =>
          .enter .fieldInitializer value false :: visitIn c value ++ [.leave value]) := by
      refine gather_eq_some fun value hmem => ?_
      rw [hnode (List.mem_cons_of_mem _ hmem)]
      rfl
    simp only [stepsOfKind, hvalue, hvisitIf (m := p.key) p.computed (List.mem_cons_self ..)]
    rfl
  | staticBlock body =>
    simp only [stepsOfKind, hlist (List.Subset.refl body)]
    rfl
  | blockStatement body =>
    simp only [stepsOfKind, hlist (List.Subset.refl body)]
    rfl
  | labeledStatement label body => exact hnode (by simp [NodeKind.children])
  | forStatement start test update body =>
    have hstart (m : NodeId) (hm : m ∈ start) : t.contains m :=
      hchild (by simp [NodeKind.children, Option.mem_def.1 hm])
    simp only [stepsOfKind, declaresLexically_eq hstart, hlist (List.Subset.refl _),
      Option.bind_eq_bind, Option.bind_some]
    rfl
  | forInStatement left right body =>
    exact loopSteps_eq (hvisit c) (hchild (by simp [NodeKind.children]))
      (hchild (by simp [NodeKind.children])) (hchild (by simp [NodeKind.children])) n
  | forOfStatement left right body _ =>
    exact loopSteps_eq (hvisit c) (hchild (by simp [NodeKind.children]))
      (hchild (by simp [NodeKind.children])) (hchild (by simp [NodeKind.children])) n
  | switchStatement discriminant cases =>
    simp only [stepsOfKind, hnode (m := discriminant) (List.mem_cons_self ..),
      hlist (List.subset_cons_self discriminant cases)]
    rfl
  | withStatement object body =>
    simp only [stepsOfKind, hnode (m := object) (by simp [NodeKind.children]),
      hnode (m := body) (by simp [NodeKind.children])]
    rfl
  | catchClause param body =>
    obtain ⟨hparam, hbody⟩ := List.forall_mem_append.1 fun m hm => hchild hm
    exact catchSteps_eq (hvisit c) hparam (hbody body (List.mem_singleton_self _)) n
  | variableDeclaration kind declarations =>
    refine gather_eq_some fun x hx => declaratorSteps_eq (hvisit c) (hchild ?_) n kind x.2
    exact (List.mem_zipIdx' hx).2 ▸ List.getElem_mem _
  | functionDeclaration f => exact functionSteps_eq (hvisit c) hkind c
  | functionExpression f => exact functionSteps_eq (hvisit c) hkind c
  | arrowFunctionExpression f => exact functionSteps_eq (hvisit c) hkind c
  | classDeclaration parts =>
    refine classSteps_eq (hvisit c) (fun m hm => hchild ?_) n true
    rw [NodeKind.children, List.append_assoc]
    exact List.mem_append_right _ hm
  | classExpression parts =>
    refine classSteps_eq (hvisit c) (fun m hm => hchild ?_) n false
    rw [NodeKind.children, List.append_assoc]
    exact List.mem_append_right _ hm
  | importDeclaration specifiers source kind =>
    have himport := importSteps_eq (fun m hm => hchild (List.mem_append_left _ hm)) n kind
    simp only [stepsOfKind, Tree.stepsOfKind, himport]
    split <;> rfl
  | exportNamedDeclaration declaration specifiers source =>
    cases source with
    | some source => rfl
    | none =>
      cases declaration with
      | some declaration => exact hnode (List.mem_cons_self ..)
      | none => exact hlist (List.Subset.refl _)
  | exportSpecifier localName exported => exact hnode (by simp [NodeKind.children])
  | _ => exact hlist (List.Subset.refl _)

end Visit

/-- The walk looks up nodes of the tree only, and so gives the steps of the outline. -/
theorem stepsWithin_eq (fuel : Nat) (c : Context) (hn : t.contains n) :
    stepsWithin t.kind? fuel c n = some (t.stepsWithin fuel c n) := by
  induction fuel generalizing c n with
  | zero => rfl
  | succ fuel ih =>
    obtain ⟨kind, hkind⟩ := exists_kind? hn
    rw [stepsWithin, Tree.stepsWithin, hkind]
    exact stepsOfKind_eq (fun c m hm => ih c hm) hkind c

theorem enterProgram_eq (t : Tree) (o : LanguageOptions) (sourceType : SourceType) :
    enterProgram t.kind? t.root o sourceType = some (t.enterProgram o sourceType) := by
  rw [enterProgram, hasUseStrict_eq (decide_eq_true t.root_lt)]
  rfl

/-- No look-up fails on the way through a program. -/
theorem outline_eq (t : Tree) (o : LanguageOptions) :
    outline t.kind? t.root o = some ((t.outline? o).elim (.error t.rootKind) .ok) := by
  have hroot : t.kind? t.root = some t.rootKind :=
    Tree.kind?_eq_some_iff.2 ⟨t.root_lt, rfl⟩
  rw [outline, hroot, Option.bind_eq_bind, Option.bind_some]
  rw [Tree.outline?]
  cases hkind : t.rootKind with
  | program body sourceType =>
    have hbody : gather body (steps t.kind? { isModule := o.isModuleFor sourceType }) =
        some (body.flatMap (t.steps { isModule := o.isModuleFor sourceType })) :=
      gather_eq_some fun m hm => stepsWithin_eq _ _
        (Tree.contains_of_mem_children (hroot.trans (congrArg some hkind)) hm)
    simp only [enterProgram_eq, hbody]
    rfl
  | _ => rfl

/-- The outline of a program rests on the kinds of its nodes alone. -/
theorem outline?_congr {t t' : Tree} (hroot : t'.root = t.root) (hkind : t'.kind? = t.kind?)
    (o : LanguageOptions) : t'.outline? o = t.outline? o := by
  have h : (t'.outline? o).elim (.error t'.rootKind) .ok =
      ((t.outline? o).elim (.error t.rootKind) .ok : Except NodeKind Outline) := by
    apply Option.some.inj
    rw [← outline_eq, ← outline_eq, hroot, hkind]
  cases h' : t'.outline? o <;> cases h'' : t.outline? o <;> simp_all

end Agreement

end Checked

end LexicalScope
