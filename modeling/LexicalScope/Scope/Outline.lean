import LexicalScope.Options.LanguageOptions
import LexicalScope.Scope.Step
import LexicalScope.Syntax.Pattern

/-!
The outline of a program: the steps that a walk over its syntax tree takes. Names are texts
here. A pattern takes the steps of all its targets before those of the expressions inside it.
-/
namespace LexicalScope

/-- What a node inherits from the nodes around it. -/
structure Context where
  isModule : Bool
  /-- Whether a class method lies around it. -/
  inMethod : Bool := false

abbrev Outline := List (Step String)

namespace Tree

def declareAt (t : Tree) (place : Place) (id : NodeId) (definition : Definition) : Outline :=
  (t.identifierName? id).elim [] fun name => [.declare place name (some definition)]

/-- An occurrence that both reads and writes; nodes other than identifiers have none. -/
def updateAt (t : Tree) (n : NodeId) (writeExpr : Option NodeId) : Outline :=
  (t.identifierName? n).elim [] fun name =>
    [.refer { identifier := n, name, access := .readWrite, writeExpr }]

end Tree

namespace PatternTarget

/-- The write to a target, as a part of a pattern unless `whole` is set. -/
def write (x : PatternTarget) (expr : NodeId) (whole init : Bool) (assignment : Option NodeId) :
    Step String :=
  .refer {
    identifier := x.identifier
    name := x.name
    access := .write
    writeExpr := some expr
    partialWrite := !whole
    init
    assignment }

def defaultWrites (x : PatternTarget) (init : Bool) (assignment : Option NodeId) : Outline :=
  x.defaults.map fun d => x.write d.right (x.identifier = d.left) init assignment

def declare (x : PatternTarget) (place : Place) (definition : Definition) : Outline :=
  .declare place x.name (some definition) :: x.defaultWrites true none

end PatternTarget

namespace Tree

def prologue (t : Tree) (statements : List NodeId) : List (String × Option String) :=
  let literal? := fun statement =>
    match t.kind? statement with
    | some (.expressionStatement expression _) =>
      match t.kind? expression with
      | some (.literal (.string value) raw) => some (value, raw)
      | _ => none
    | _ => none
  ((statements.map literal?).takeWhile Option.isSome).filterMap id

/-- Whether a program or a block begins with the directive `use strict`. The raw text decides
where it is known, so an escape in it does not count. -/
def hasUseStrict (t : Tree) (body : NodeId) : Bool :=
  let isUseStrict : String × Option String → Bool
    | (_, some raw) => raw = "\"use strict\"" || raw = "'use strict'"
    | (value, none) => value = "use strict"
  match t.kind? body with
  | some (.program statements _) | some (.blockStatement statements) =>
    (t.prologue statements).any isUseStrict
  | _ => false

def isStrictFunction (t : Tree) : NodeKind → Bool
  | .arrowFunctionExpression { expression := true, .. } => false
  | kind => kind.functionBody?.any t.hasUseStrict

def patternSteps (t : Tree) (visit : NodeId → Outline) (pattern : NodeId)
    (target : PatternTarget → Outline) : Outline :=
  let p := t.pattern pattern
  p.targets.flatMap target ++ p.rightHand.flatMap visit

/-- Assignment to a pattern. `whole` says whether a target that is the pattern itself is written
as a whole. -/
def assignSteps (t : Tree) (visit : NodeId → Outline) (assignment left right : NodeId)
    (whole : Bool) : Outline :=
  t.patternSteps visit left fun x =>
    x.defaultWrites false (some assignment) ++
      [x.write right (whole && x.topLevel) false (some assignment)]

def declaratorSteps (t : Tree) (visit : NodeId → Outline) (declaration declarator : NodeId)
    (kind : VariableKind) (index : Nat) : Outline :=
  match t.kind? declarator with
  | some (.variableDeclarator id init) =>
    let place := if kind = .varDecl then .variableScope else .current
    t.patternSteps visit id (fun x =>
      x.declare place (.ofDeclarator x.identifier declarator declaration index kind) ++
        init.toList.map fun e => x.write e x.topLevel true none) ++
    init.toList.flatMap visit
  | _ => []

/-- The head of a `for-in` or `for-of` loop that declares its variable: the first declarator is
written by the loop. -/
def loopDeclarationWrites (t : Tree) (declarations : List NodeId) (right : NodeId) : Outline :=
  match declarations.head?.bind t.kind? with
  | some (.variableDeclarator id _) =>
    (t.pattern id).targets.map fun x => x.write right false true none
  | _ => []

def loopSteps (t : Tree) (visit : NodeId → Outline) (n left right body : NodeId) : Outline :=
  let head :=
    match t.kind? left with
    | some (.variableDeclaration kind declarations) =>
      (if kind = .varDecl then [] else [.enter .forLoop n false]) ++
        visit left ++ t.loopDeclarationWrites declarations right
    | _ => t.assignSteps visit n left right false
  head ++ visit right ++ visit body ++ [.leave n]

def catchSteps (t : Tree) (visit : NodeId → Outline) (n : NodeId) (param : Option NodeId)
    (body : NodeId) : Outline :=
  let bindings := param.toList.flatMap fun p =>
    t.patternSteps visit p fun x =>
      x.declare .current { kind := .catchClause, name := x.identifier, node := n }
  .enter .catchClause n false :: bindings ++ visit body ++ [.leave n]

/-- The scope of a function opens, with `arguments` in it unless the function is an arrow. -/
def enterFunction (n : NodeId) (strict isArrow : Bool) : Outline :=
  .enter .function n strict :: if isArrow then [] else [.declare .current "arguments" none]

def functionNameSteps (t : Tree) (n : NodeId) : NodeKind → Outline
  | .functionDeclaration { id := some id, .. } =>
    t.declareAt .current id { kind := .functionName, name := id, node := n }
  | .functionExpression { id := some id, .. } =>
    .enter .functionName n false ::
      t.declareAt .current id { kind := .functionName, name := id, node := n }
  | _ => []

def functionSteps (t : Tree) (visit : NodeId → Outline) (c : Context) (n : NodeId)
    (kind : NodeKind) : Outline :=
  let isArrow := kind matches .arrowFunctionExpression _
  let params := (kind.functionParams?.getD []).zipIdx.flatMap fun (param, index) =>
    t.patternSteps visit param fun x =>
      x.declare .current (.ofParameter x.identifier n index x.rest)
  let body := kind.functionBody?.toList.flatMap fun body =>
    match t.kind? body with
    | some (.blockStatement statements) => statements.flatMap visit
    | _ => visit body
  t.functionNameSteps n kind ++
    enterFunction n (c.inMethod || t.isStrictFunction kind) isArrow ++
    params ++ body ++ [.leave n]

def classSteps (t : Tree) (visit : NodeId → Outline) (n : NodeId) (isDeclaration : Bool)
    (c : Class) : Outline :=
  let named := c.id.toList.flatMap fun id =>
    t.declareAt .current id { kind := .className, name := id, node := n }
  (if isDeclaration then named else []) ++ .enter .classBody n true :: named ++
    c.superClass.toList.flatMap visit ++ visit c.body ++ [.leave n]

def importedBinding? : NodeKind → Option (NodeId × Bool)
  | .importSpecifier _ localName kind => some (localName, kind = .type)
  | .importDefaultSpecifier localName | .importNamespaceSpecifier localName =>
    some (localName, false)
  | _ => none

def importSteps (t : Tree) (n : NodeId) (specifiers : List NodeId) (kind : ImportKind) :
    Outline :=
  specifiers.flatMap fun specifier =>
    match (t.kind? specifier).bind importedBinding? with
    | some (localName, typeOnly) =>
      t.declareAt .current localName {
        kind := .importBinding
        name := localName
        node := specifier
        parent := some n
        typeOnly := typeOnly || kind = .type }
    | none => []

def stepsOfKind (t : Tree) (visitIn : Context → NodeId → Outline) (c : Context) (n : NodeId)
    (kind : NodeKind) : Outline :=
  let visit := visitIn c
  match kind with
  | .identifier name => [.refer { identifier := n, name, access := .read }]
  | .privateIdentifier _ | .superExpression | .metaProperty .. => []
  | .breakStatement _ | .continueStatement _ | .exportAllDeclaration .. => []
  | .thisExpression => [.this]
  | .assignmentExpression operator left right =>
    let target :=
      if t.isPattern left then
        if operator = .assign then t.assignSteps visit n left right true
        else t.updateAt left (some right)
      else visit left
    target ++ visit right
  | .updateExpression _ _ argument =>
    if t.isPattern argument then t.updateAt argument none else visit argument
  | .memberExpression object key computed _ =>
    visit object ++ if computed then visit key else []
  | .property p => (if p.computed then visit p.key else []) ++ visit p.value
  | .methodDefinition m =>
    (if m.computed then visit m.key else []) ++ visitIn { c with inMethod := true } m.value
  | .propertyDefinition p =>
    (if p.computed then visit p.key else []) ++ p.value.toList.flatMap fun value =>
      .enter .fieldInitializer value false :: visit value ++ [.leave value]
  | .staticBlock body => .enter .staticBlock n false :: body.flatMap visit ++ [.leave n]
  | .labeledStatement _ body => visit body
  | .blockStatement body => .enter .block n false :: body.flatMap visit ++ [.leave n]
  | .forStatement start _ _ _ =>
    let isLexical : Bool :=
      match start.bind t.kind? with
      | some (.variableDeclaration kind _) => kind ≠ .varDecl
      | _ => false
    (if isLexical then [.enter .forLoop n false] else []) ++
      kind.children.flatMap visit ++ [.leave n]
  | .forInStatement left right body | .forOfStatement left right body _ =>
    t.loopSteps visit n left right body
  | .switchStatement discriminant cases =>
    visit discriminant ++ .enter .switchBody n false :: cases.flatMap visit ++ [.leave n]
  | .withStatement object body =>
    visit object ++ .enter .withBody n false :: visit body ++ [.leave n]
  | .catchClause param body => t.catchSteps visit n param body
  | .variableDeclaration kind declarations =>
    declarations.zipIdx.flatMap fun (declarator, index) =>
      t.declaratorSteps visit n declarator kind index
  | .functionDeclaration _ | .functionExpression _ | .arrowFunctionExpression _ =>
    t.functionSteps visit c n kind
  | .classDeclaration parts => t.classSteps visit n true parts
  | .classExpression parts => t.classSteps visit n false parts
  | .importDeclaration specifiers _ kind =>
    if c.isModule then t.importSteps n specifiers kind else [.misplacedImport n]
  | .exportNamedDeclaration declaration _ source =>
    match source, declaration with
    | some _, _ => []
    | none, some declaration => visit declaration
    | none, none => kind.children.flatMap visit
  | .exportSpecifier localName _ => visit localName
  | _ => kind.children.flatMap visit

def stepsWithin (t : Tree) : Nat → Context → NodeId → Outline
  | 0, _, _ => []
  | fuel + 1, c, n => (t.kind? n).elim [] (t.stepsOfKind (stepsWithin t fuel) c n)

/-- The steps of the nodes at and below `n`. Children have smaller numbers, so they go no deeper
than the number of `n`. -/
def steps (t : Tree) (c : Context) (n : NodeId) : Outline :=
  t.stepsWithin (n.index + 1) c n

/-- The scopes anchored at the root. A program wrapped in a function leaves its directives to
that function, and implied strictness holds from the innermost of these scopes on. -/
def enterProgram (t : Tree) (o : LanguageOptions) (sourceType : SourceType) : Outline :=
  let wrapped := o.globalReturnFor sourceType
  let isModule := o.isModuleFor sourceType
  let useStrict := t.hasUseStrict t.root
  let strict := fun isInnermost own => own || (isInnermost && o.impliedStrict)
  .enter .global t.root (strict (!wrapped && !isModule) (!wrapped && useStrict)) ::
    ((if wrapped then enterFunction t.root (strict (!isModule) useStrict) false else []) ++
      if isModule then [.enter .module t.root true] else [])

def outline? (t : Tree) (o : LanguageOptions) : Option Outline :=
  match t.rootKind with
  | .program body sourceType =>
    let c : Context := { isModule := o.isModuleFor sourceType }
    some (t.enterProgram o sourceType ++ body.flatMap (t.steps c) ++ [.leave t.root])
  | _ => none

end Tree

end LexicalScope
