import LexicalScope.Analysis
import LexicalScope.Proofs.Chain

/-!
The visitor. The scope graph of a program is built once more, now in a single pass over the tree
that takes down no outline. The pass knows the scope where it is and finds its way back by the
uppers of the scopes that it closes, and it changes what it knows of the nodes around it as it
goes: the target of a declaration and the strictness of an assignment are read before their
patterns are visited. It stops at an import outside of a module.
-/
namespace LexicalScope

structure Visitor (ν : Type) where
  graph : ScopeGraph ν := {}
  current : Option ScopeId := none
  /-- The scopes closed so far, the latest first. -/
  closed : List ScopeId := []
  /-- Set while the value of a class method is visited. -/
  inMethod : Bool := false
  isModule : Bool := false

namespace Visitor

variable {ν : Type}

abbrev Stage (ν : Type) := Visitor ν → Except ScopeError (Visitor ν)

def Stage.lift (f : Visitor ν → Visitor ν) : Stage ν :=
  fun v => .ok (f v)

def Stage.skip : Stage ν :=
  .ok

def Stage.each {α : Type} (l : List α) (f : α → Stage ν) : Stage ν :=
  fun v => l.foldlM (fun v x => f x v) v

open Stage

def scope (v : Visitor ν) : ScopeId :=
  v.current.getD .global

def isStrict (v : Visitor ν) : Bool :=
  v.graph.isStrict v.scope

def nest (kind : ScopeKind) (block : NodeId) (strict : Bool) (v : Visitor ν) : Visitor ν :=
  { v with
    graph := v.graph.openScope kind block strict v.current
    current := some v.graph.nextScope }

def setStrict (strict : Bool) (v : Visitor ν) : Visitor ν :=
  { v with graph := v.graph.modifyScope v.scope fun s => { s with isStrict := strict } }

def markThis (v : Visitor ν) : Visitor ν :=
  { v with
    graph := v.graph.modifyScope (v.graph.variableScope v.scope)
      fun s => { s with thisFound := true } }

section Inner

variable (t : Tree) (visit : NodeId → Stage ν)

def visitIf (condition : Bool) (n : NodeId) : Stage ν :=
  if condition then visit n else skip

/-- The targets of a pattern come before the expressions inside it. -/
def visitPattern (pattern : NodeId) (target : PatternTarget → Stage ν) : Stage ν :=
  each (t.pattern pattern).targets target >=> each (t.pattern pattern).rightHand visit

/-- The value of a class method is visited as one, whatever its visit does. -/
def visitMethod (m : NodeId) : Stage ν := fun v => do
  let visited ← visit m { v with inMethod := true }
  return { visited with inMethod := v.inMethod }

/-- The block of a function has no scope of its own. -/
def visitBody (body : NodeId) : Stage ν :=
  match t.kind? body with
  | some (.blockStatement statements) => each statements visit
  | _ => visit body

end Inner

variable [DecidableEq ν]

def closeScope (t : Tree) (s : ScopeId) (v : Visitor ν) : Visitor ν :=
  let graph := v.graph.closeScope t s
  { v with graph, current := graph.upper? s, closed := s :: v.closed }

def closeWithin (t : Tree) (n : NodeId) : Nat → Visitor ν → Visitor ν
  | 0, v => v
  | fuel + 1, v =>
    match v.current with
    | none => v
    | some s =>
      if (v.graph.getScope? s).any (·.block = n) then closeWithin t n fuel (v.closeScope t s)
      else v

/-- Closes every scope anchored at `n` on the way up from the current one, to the first that is
not. There are no more of them than scopes. -/
def close (t : Tree) (n : NodeId) (v : Visitor ν) : Visitor ν :=
  closeWithin t n v.graph.scopes.size v

section Parts

/- Names come from the tree as texts and enter the graph by their handles. -/
variable (t : Tree) (handle : String → ν)

def declareName (s : ScopeId) (name : String) (definition : Option Definition)
    (v : Visitor ν) : Visitor ν :=
  { v with graph := v.graph.declare s (handle name) definition }

def declare (s : ScopeId) (id : NodeId) (definition : Definition) (v : Visitor ν) : Visitor ν :=
  (t.identifierName? id).elim v fun name => v.declareName handle s name (some definition)

/-- Records an occurrence in the current scope. Its assignment is left out in strict code. -/
def refer (o : Occurrence String) (v : Visitor ν) : Visitor ν :=
  { v with
    graph := v.graph.addReference {
      id := v.graph.nextReference
      identifier := o.identifier
      name := handle o.name
      origin := v.scope
      access := o.access
      writeExpr := o.writeExpr
      partialWrite := o.partialWrite
      init := o.init
      site := o.assignment.map (⟨o.identifier, ·⟩) } }

def update (n : NodeId) (writeExpr : Option NodeId) (v : Visitor ν) : Visitor ν :=
  (t.identifierName? n).elim v fun name =>
    v.refer handle { identifier := n, name, access := .readWrite, writeExpr }

def write (x : PatternTarget) (expr : NodeId) (whole init : Bool) (assignment : Option NodeId) :
    Stage ν :=
  lift (refer handle {
    identifier := x.identifier
    name := x.name
    access := .write
    writeExpr := some expr
    partialWrite := !whole
    init
    assignment })

def writeDefaults (x : PatternTarget) (init : Bool) (assignment : Option NodeId) : Stage ν :=
  each x.defaults fun d => write handle x d.right (x.identifier = d.left) init assignment

def declareTarget (x : PatternTarget) (s : ScopeId) (definition : Definition) : Stage ν :=
  lift (declareName handle s x.name (some definition)) >=> writeDefaults handle x true none

def nestFunction (n : NodeId) (strict isArrow : Bool) (v : Visitor ν) : Visitor ν :=
  let v := v.nest .function n strict
  if isArrow then v else v.declareName handle v.scope "arguments" none

def nameFunction (n : NodeId) (kind : NodeKind) (v : Visitor ν) : Visitor ν :=
  match kind with
  | .functionDeclaration { id := some id, .. } =>
    v.declare t handle v.scope id { kind := .functionName, name := id, node := n }
  | .functionExpression { id := some id, .. } =>
    let v := v.nest .functionName n false
    v.declare t handle v.scope id { kind := .functionName, name := id, node := n }
  | _ => v

def nameClass (n : NodeId) (id : Option NodeId) : Stage ν :=
  each id.toList fun id => lift fun v =>
    v.declare t handle v.scope id { kind := .className, name := id, node := n }

def visitImport (n : NodeId) (specifiers : List NodeId) (kind : ImportKind) : Stage ν :=
  each specifiers fun specifier =>
    match (t.kind? specifier).bind Tree.importedBinding? with
    | some (localName, typeOnly) => lift fun v =>
      v.declare t handle v.scope localName {
        kind := .importBinding
        name := localName
        node := specifier
        parent := some n
        typeOnly := typeOnly || kind = .type }
    | none => skip

def writeLoopDeclaration (declarations : List NodeId) (right : NodeId) : Stage ν :=
  match declarations.head?.bind t.kind? with
  | some (.variableDeclarator id _) =>
    each (t.pattern id).targets fun x => write handle x right false true none
  | _ => skip

/- How other nodes are visited. -/
variable (visit : NodeId → Stage ν)

/-- Whether an assignment can create globals is known before its pattern is visited. -/
def assign (assignment left right : NodeId) (whole : Bool) : Stage ν := fun v =>
  let site := if v.isStrict then none else some assignment
  visitPattern t visit left (fun x =>
    writeDefaults handle x false site >=> write handle x right (whole && x.topLevel) false site) v

def visitAssignment (n left right : NodeId) (operator : AssignmentOperator) : Stage ν :=
  (if t.isPattern left then
      if operator = .assign then assign t handle visit n left right true
      else lift (update t handle left (some right))
    else visit left) >=>
  visit right

def visitField (value : NodeId) : Stage ν :=
  lift (nest .fieldInitializer value false) >=> visit value >=> lift (close t value)

def visitDeclarator (target : ScopeId) (declaration declarator : NodeId) (kind : VariableKind)
    (index : Nat) : Stage ν :=
  match t.kind? declarator with
  | some (.variableDeclarator id init) =>
    visitPattern t visit id (fun x =>
      declareTarget handle x target
          (.ofDeclarator x.identifier declarator declaration index kind) >=>
        each init.toList fun e => write handle x e x.topLevel true none) >=>
    each init.toList visit
  | _ => skip

/-- All declarators declare in the scope that the declaration finds. -/
def visitDeclaration (n : NodeId) (kind : VariableKind) (declarations : List NodeId) : Stage ν :=
  fun v =>
    let target := if kind = .varDecl then v.graph.variableScope v.scope else v.scope
    each declarations.zipIdx (fun (declarator, index) =>
      visitDeclarator t handle visit target n declarator kind index) v

def visitLoop (n left right body : NodeId) : Stage ν :=
  (match t.kind? left with
    | some (.variableDeclaration kind declarations) =>
      (if kind = .varDecl then skip else lift (nest .forLoop n false)) >=> visit left >=>
        writeLoopDeclaration t handle declarations right
    | _ => assign t handle visit n left right false) >=>
  visit right >=> visit body >=> lift (close t n)

def visitCatch (n : NodeId) (param : Option NodeId) (body : NodeId) : Stage ν :=
  lift (nest .catchClause n false) >=>
  each param.toList (fun p => visitPattern t visit p fun x v =>
    declareTarget handle x v.scope { kind := .catchClause, name := x.identifier, node := n } v) >=>
  visit body >=> lift (close t n)

def visitParameter (n param : NodeId) (index : Nat) : Stage ν :=
  visitPattern t visit param fun x v =>
    declareTarget handle x v.scope (.ofParameter x.identifier n index x.rest) v

def visitFunction (n : NodeId) (kind : NodeKind) : Stage ν :=
  lift (nameFunction t handle n kind) >=>
  lift (fun v => v.nestFunction handle n (v.inMethod || t.isStrictFunction kind)
    (kind matches .arrowFunctionExpression _)) >=>
  each (kind.functionParams?.getD []).zipIdx (fun (param, index) =>
    visitParameter t handle visit n param index) >=>
  each kind.functionBody?.toList (visitBody t visit) >=>
  lift (close t n)

def visitClass (n : NodeId) (isDeclaration : Bool) (c : Class) : Stage ν :=
  (if isDeclaration then nameClass t handle n c.id else skip) >=>
  lift (nest .classBody n true) >=> nameClass t handle n c.id >=>
  each c.superClass.toList visit >=> visit c.body >=> lift (close t n)

def visitKind (n : NodeId) (kind : NodeKind) : Stage ν :=
  match kind with
  | .identifier name => lift (refer handle { identifier := n, name, access := .read })
  | .privateIdentifier _ | .superExpression | .metaProperty .. => skip
  | .breakStatement _ | .continueStatement _ | .exportAllDeclaration .. => skip
  | .thisExpression => lift markThis
  | .assignmentExpression operator left right => visitAssignment t handle visit n left right operator
  | .updateExpression _ _ argument =>
    if t.isPattern argument then lift (update t handle argument none) else visit argument
  | .memberExpression object key computed _ => visit object >=> visitIf visit computed key
  | .property p => visitIf visit p.computed p.key >=> visit p.value
  | .methodDefinition m => visitIf visit m.computed m.key >=> visitMethod visit m.value
  | .propertyDefinition p =>
    visitIf visit p.computed p.key >=> each p.value.toList (visitField t visit)
  | .staticBlock body =>
    lift (nest .staticBlock n false) >=> each body visit >=> lift (close t n)
  | .labeledStatement _ body => visit body
  | .blockStatement body => lift (nest .block n false) >=> each body visit >=> lift (close t n)
  | .forStatement start _ _ _ =>
    let isLexical : Bool :=
      match start.bind t.kind? with
      | some (.variableDeclaration kind _) => kind ≠ .varDecl
      | _ => false
    (if isLexical then lift (nest .forLoop n false) else skip) >=>
      each kind.children visit >=> lift (close t n)
  | .forInStatement left right body | .forOfStatement left right body _ =>
    visitLoop t handle visit n left right body
  | .switchStatement discriminant cases =>
    visit discriminant >=> lift (nest .switchBody n false) >=> each cases visit >=>
      lift (close t n)
  | .withStatement object body =>
    visit object >=> lift (nest .withBody n false) >=> visit body >=> lift (close t n)
  | .catchClause param body => visitCatch t handle visit n param body
  | .variableDeclaration kind declarations => visitDeclaration t handle visit n kind declarations
  | .functionDeclaration _ | .functionExpression _ | .arrowFunctionExpression _ =>
    visitFunction t handle visit n kind
  | .classDeclaration parts => visitClass t handle visit n true parts
  | .classExpression parts => visitClass t handle visit n false parts
  | .importDeclaration specifiers _ kind => fun v =>
    if v.isModule then visitImport t handle n specifiers kind v
    else .error (.importOutsideModule n)
  | .exportNamedDeclaration declaration _ source =>
    match source, declaration with
    | some _, _ => skip
    | none, some declaration => visit declaration
    | none, none => each kind.children visit
  | .exportSpecifier localName _ => visit localName
  | _ => each kind.children visit

end Parts

section Visit

variable (t : Tree) (handle : String → ν)

def visitWithin : Nat → NodeId → Stage ν
  | 0, _ => skip
  | fuel + 1, n => (t.kind? n).elim skip (visitKind t handle (visitWithin fuel) n)

/-- A visit to the nodes at and below `n`. Children have smaller numbers, so it goes no deeper
than the number of `n`. -/
def visit (n : NodeId) : Stage ν :=
  visitWithin t handle (n.index + 1) n

/-- Opens the scopes anchored at the root. In a program wrapped in a function the global scope is
sloppy, and implied strictness holds from the innermost of these scopes on. -/
def enterProgram (o : LanguageOptions) (sourceType : SourceType) (v : Visitor ν) : Visitor ν :=
  let useStrict := t.hasUseStrict t.root
  let v := v.nest .global t.root useStrict
  let v :=
    if o.globalReturnFor sourceType then
      (v.setStrict false).nestFunction handle t.root useStrict false
    else v
  let v := if o.isModuleFor sourceType then v.nest .module t.root true else v
  if o.impliedStrict then v.setStrict true else v

def visitProgram (o : LanguageOptions) : Except ScopeError (Visitor ν) :=
  match t.rootKind with
  | .program body sourceType =>
    (each body (visit t handle) >=> lift (close t t.root))
      (enterProgram t handle o sourceType { isModule := o.isModuleFor sourceType })
  | kind => .error (.rootNotProgram t.root kind.typeName)

end Visit

end Visitor

end LexicalScope
