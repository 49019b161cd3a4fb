import LexicalScope.Syntax.Node

/-!
Nodes as records: the type of a node and its fields by name, for exchanging trees with other
programs. `fields` lists every field of a node. `ofRecord?` makes the node again; a field that is
left out counts as none, as an empty list or as false.
-/
namespace LexicalScope

inductive Field where
  | absent
  | node (n : NodeId)
  | nodes (ns : List (Option NodeId))
  | flag (b : Bool)
  | text (s : String)
  | literal (value : LiteralValue)

namespace Field

def ofNode? (n : Option NodeId) : Field :=
  n.elim absent node

def ofNodes (ns : List NodeId) : Field :=
  nodes (ns.map some)

def ofText? (s : Option String) : Field :=
  s.elim absent text

end Field

def Function.fields (f : Function) : List (String × Field) :=
  [("id", .ofNode? f.id), ("params", .ofNodes f.params), ("body", .ofNode? f.body),
    ("isAsync", .flag f.isAsync), ("generator", .flag f.generator)]

def Class.fields (c : Class) : List (String × Field) :=
  [("id", .ofNode? c.id), ("superClass", .ofNode? c.superClass), ("body", .node c.body)]

def NodeKind.fields : NodeKind → List (String × Field)
  | .program body sourceType =>
    [("body", .ofNodes body), ("sourceType", .text sourceType.text)]
  | .identifier name | .privateIdentifier name => [("name", .text name)]
  | .literal value raw => [("value", .literal value), ("raw", .ofText? raw)]
  | .templateLiteral quasis expressions =>
    [("quasis", .ofNodes quasis), ("expressions", .ofNodes expressions)]
  | .templateElement raw cooked tail =>
    [("raw", .text raw), ("cooked", .ofText? cooked), ("tail", .flag tail)]
  | .thisExpression | .superExpression | .emptyStatement | .debuggerStatement => []
  | .arrayExpression elements | .arrayPattern elements =>
    [("elements", .nodes elements)]
  | .objectExpression properties | .objectPattern properties =>
    [("properties", .ofNodes properties)]
  | .property p =>
    [("key", .node p.key), ("value", .node p.value), ("kind", .text p.kind.text),
      ("computed", .flag p.computed), ("shorthand", .flag p.shorthand), ("method", .flag p.method)]
  | .functionExpression f | .functionDeclaration f => f.fields
  | .arrowFunctionExpression f =>
    [("params", .ofNodes f.params), ("body", .node f.body), ("expression", .flag f.expression),
      ("isAsync", .flag f.isAsync)]
  | .classExpression c | .classDeclaration c => c.fields
  | .unaryExpression operator argument =>
    [("operator", .text operator.text), ("argument", .node argument)]
  | .updateExpression operator isPrefix argument =>
    [("operator", .text operator.text), ("prefix", .flag isPrefix), ("argument", .node argument)]
  | .binaryExpression operator left right =>
    [("operator", .text operator.text), ("left", .node left), ("right", .node right)]
  | .logicalExpression operator left right =>
    [("operator", .text operator.text), ("left", .node left), ("right", .node right)]
  | .assignmentExpression operator left right =>
    [("operator", .text operator.text), ("left", .node left), ("right", .node right)]
  | .conditionalExpression test consequent alternate =>
    [("test", .node test), ("consequent", .node consequent), ("alternate", .node alternate)]
  | .callExpression callee arguments optional =>
    [("callee", .node callee), ("arguments", .ofNodes arguments), ("optional", .flag optional)]
  | .newExpression callee arguments =>
    [("callee", .node callee), ("arguments", .ofNodes arguments)]
  | .memberExpression object key computed optional =>
    [("object", .node object), ("property", .node key), ("computed", .flag computed),
      ("optional", .flag optional)]
  | .chainExpression expression => [("expression", .node expression)]
  | .sequenceExpression expressions => [("expressions", .ofNodes expressions)]
  | .yieldExpression argument delegate =>
    [("argument", .ofNode? argument), ("delegate", .flag delegate)]
  | .awaitExpression argument | .spreadElement argument | .restElement argument
  | .throwStatement argument => [("argument", .node argument)]
  | .taggedTemplateExpression tag quasi => [("tag", .node tag), ("quasi", .node quasi)]
  | .metaProperty object key => [("meta", .node object), ("property", .node key)]
  | .importExpression source options =>
    [("source", .node source), ("options", .ofNode? options)]
  | .assignmentPattern left right => [("left", .node left), ("right", .node right)]
  | .expressionStatement expression directive =>
    [("expression", .node expression), ("directive", .ofText? directive)]
  | .blockStatement body | .classBody body | .staticBlock body => [("body", .ofNodes body)]
  | .withStatement object body => [("object", .node object), ("body", .node body)]
  | .returnStatement argument => [("argument", .ofNode? argument)]
  | .labeledStatement label body => [("label", .node label), ("body", .node body)]
  | .breakStatement label | .continueStatement label => [("label", .ofNode? label)]
  | .ifStatement test consequent alternate =>
    [("test", .node test), ("consequent", .node consequent),
      ("alternate", .ofNode? alternate)]
  | .switchStatement discriminant cases =>
    [("discriminant", .node discriminant), ("cases", .ofNodes cases)]
  | .switchCase test consequent =>
    [("test", .ofNode? test), ("consequent", .ofNodes consequent)]
  | .tryStatement block handler finalizer =>
    [("block", .node block), ("handler", .ofNode? handler),
      ("finalizer", .ofNode? finalizer)]
  | .catchClause param body => [("param", .ofNode? param), ("body", .node body)]
  | .whileStatement test body | .doWhileStatement body test =>
    [("test", .node test), ("body", .node body)]
  | .forStatement start test update body =>
    [("init", .ofNode? start), ("test", .ofNode? test), ("update", .ofNode? update),
      ("body", .node body)]
  | .forInStatement left right body =>
    [("left", .node left), ("right", .node right), ("body", .node body)]
  | .forOfStatement left right body isAwait =>
    [("left", .node left), ("right", .node right), ("body", .node body),
      ("isAwait", .flag isAwait)]
  | .variableDeclaration kind declarations =>
    [("kind", .text kind.text), ("declarations", .ofNodes declarations)]
  | .variableDeclarator id init => [("id", .node id), ("init", .ofNode? init)]
  | .methodDefinition m =>
    [("key", .node m.key), ("value", .node m.value), ("kind", .text m.kind.text),
      ("computed", .flag m.computed), ("isStatic", .flag m.isStatic)]
  | .propertyDefinition p =>
    [("key", .node p.key), ("value", .ofNode? p.value), ("computed", .flag p.computed),
      ("isStatic", .flag p.isStatic)]
  | .importDeclaration specifiers source kind =>
    [("specifiers", .ofNodes specifiers), ("source", .node source),
      ("importKind", .text kind.text)]
  | .importSpecifier imported localName kind =>
    [("imported", .node imported), ("local", .node localName), ("importKind", .text kind.text)]
  | .importDefaultSpecifier localName | .importNamespaceSpecifier localName =>
    [("local", .node localName)]
  | .exportNamedDeclaration declaration specifiers source =>
    [("declaration", .ofNode? declaration), ("specifiers", .ofNodes specifiers),
      ("source", .ofNode? source)]
  | .exportSpecifier localName exported =>
    [("local", .node localName), ("exported", .node exported)]
  | .exportDefaultDeclaration declaration => [("declaration", .node declaration)]
  | .exportAllDeclaration exported source =>
    [("exported", .ofNode? exported), ("source", .node source)]

/-- The fields of a record by name. -/
structure Record where
  get : String → Field

namespace Record

def node (r : Record) (key : String) : Option NodeId :=
  match r.get key with
  | .node n => some n
  | _ => none

def node? (r : Record) (key : String) : Option (Option NodeId) :=
  match r.get key with
  | .absent => some none
  | .node n => some (some n)
  | _ => none

def holes (r : Record) (key : String) : Option (List (Option NodeId)) :=
  match r.get key with
  | .absent => some []
  | .nodes ns => some ns
  | _ => none

def nodes (r : Record) (key : String) : Option (List NodeId) := do
  (← r.holes key).mapM id

def flag (r : Record) (key : String) : Option Bool :=
  match r.get key with
  | .absent => some false
  | .flag b => some b
  | _ => none

def text (r : Record) (key : String) : Option String :=
  match r.get key with
  | .text s => some s
  | _ => none

def text? (r : Record) (key : String) : Option (Option String) :=
  match r.get key with
  | .absent => some none
  | .text s => some (some s)
  | _ => none

def literal (r : Record) (key : String) : Option LiteralValue :=
  match r.get key with
  | .literal value => some value
  | _ => none

def choice {α : Type} (r : Record) (ofText? : String → Option α) (key : String) : Option α := do
  ofText? (← r.text key)

def choiceOr {α : Type} (r : Record) (ofText? : String → Option α) (key : String) (default : α) :
    Option α := do
  match ← r.text? key with
  | some s => ofText? s
  | none => return default

def function (r : Record) : Option Function := do
  return {
    id := ← r.node? "id"
    params := ← r.nodes "params"
    body := ← r.node? "body"
    isAsync := ← r.flag "isAsync"
    generator := ← r.flag "generator" }

def classParts (r : Record) : Option Class := do
  return {
    id := ← r.node? "id"
    superClass := ← r.node? "superClass"
    body := ← r.node "body" }

end Record

/-- The node of a given type with the fields of a record. -/
def NodeKind.ofRecord? (type : String) (r : Record) : Option NodeKind := do
  match type with
  | "Program" =>
    return .program (← r.nodes "body")
      (← r.choiceOr SourceType.ofText? "sourceType" .script)
  | "Identifier" => return .identifier (← r.text "name")
  | "PrivateIdentifier" => return .privateIdentifier (← r.text "name")
  | "Literal" => return .literal (← r.literal "value") (← r.text? "raw")
  | "TemplateLiteral" => return .templateLiteral (← r.nodes "quasis") (← r.nodes "expressions")
  | "TemplateElement" =>
    return .templateElement (← r.text "raw") (← r.text? "cooked") (← r.flag "tail")
  | "ThisExpression" => return .thisExpression
  | "Super" => return .superExpression
  | "ArrayExpression" => return .arrayExpression (← r.holes "elements")
  | "ObjectExpression" => return .objectExpression (← r.nodes "properties")
  | "Property" =>
    return .property {
      key := ← r.node "key"
      value := ← r.node "value"
      kind := ← r.choiceOr PropertyKind.ofText? "kind" .init
      computed := ← r.flag "computed"
      shorthand := ← r.flag "shorthand"
      method := ← r.flag "method" }
  | "FunctionExpression" => return .functionExpression (← r.function)
  | "FunctionDeclaration" => return .functionDeclaration (← r.function)
  | "ArrowFunctionExpression" =>
    return .arrowFunctionExpression {
      params := ← r.nodes "params"
      body := ← r.node "body"
      expression := ← r.flag "expression"
      isAsync := ← r.flag "isAsync" }
  | "ClassExpression" => return .classExpression (← r.classParts)
  | "ClassDeclaration" => return .classDeclaration (← r.classParts)
  | "UnaryExpression" =>
    return .unaryExpression (← r.choice UnaryOperator.ofText? "operator")
      (← r.node "argument")
  | "UpdateExpression" =>
    return .updateExpression (← r.choice UpdateOperator.ofText? "operator")
      (← r.flag "prefix") (← r.node "argument")
  | "BinaryExpression" =>
    return .binaryExpression (← r.choice BinaryOperator.ofText? "operator")
      (← r.node "left") (← r.node "right")
  | "LogicalExpression" =>
    return .logicalExpression (← r.choice LogicalOperator.ofText? "operator")
      (← r.node "left") (← r.node "right")
  | "AssignmentExpression" =>
    return .assignmentExpression (← r.choice AssignmentOperator.ofText? "operator")
      (← r.node "left") (← r.node "right")
  | "ConditionalExpression" =>
    return .conditionalExpression (← r.node "test") (← r.node "consequent") (← r.node "alternate")
  | "CallExpression" =>
    return .callExpression (← r.node "callee") (← r.nodes "arguments") (← r.flag "optional")
  | "NewExpression" => return .newExpression (← r.node "callee") (← r.nodes "arguments")
  | "MemberExpression" =>
    return .memberExpression (← r.node "object") (← r.node "property") (← r.flag "computed")
      (← r.flag "optional")
  | "ChainExpression" => return .chainExpression (← r.node "expression")
  | "SequenceExpression" => return .sequenceExpression (← r.nodes "expressions")
  | "YieldExpression" => return .yieldExpression (← r.node? "argument") (← r.flag "delegate")
  | "AwaitExpression" => return .awaitExpression (← r.node "argument")
  | "TaggedTemplateExpression" =>
    return .taggedTemplateExpression (← r.node "tag") (← r.node "quasi")
  | "MetaProperty" => return .metaProperty (← r.node "meta") (← r.node "property")
  | "SpreadElement" => return .spreadElement (← r.node "argument")
  | "ImportExpression" => return .importExpression (← r.node "source") (← r.node? "options")
  | "ObjectPattern" => return .objectPattern (← r.nodes "properties")
  | "ArrayPattern" => return .arrayPattern (← r.holes "elements")
  | "RestElement" => return .restElement (← r.node "argument")
  | "AssignmentPattern" => return .assignmentPattern (← r.node "left") (← r.node "right")
  | "ExpressionStatement" =>
    return .expressionStatement (← r.node "expression") (← r.text? "directive")
  | "BlockStatement" => return .blockStatement (← r.nodes "body")
  | "EmptyStatement" => return .emptyStatement
  | "DebuggerStatement" => return .debuggerStatement
  | "WithStatement" => return .withStatement (← r.node "object") (← r.node "body")
  | "ReturnStatement" => return .returnStatement (← r.node? "argument")
  | "LabeledStatement" => return .labeledStatement (← r.node "label") (← r.node "body")
  | "BreakStatement" => return .breakStatement (← r.node? "label")
  | "ContinueStatement" => return .continueStatement (← r.node? "label")
  | "IfStatement" =>
    return .ifStatement (← r.node "test") (← r.node "consequent") (← r.node? "alternate")
  | "SwitchStatement" => return .switchStatement (← r.node "discriminant") (← r.nodes "cases")
  | "SwitchCase" => return .switchCase (← r.node? "test") (← r.nodes "consequent")
  | "ThrowStatement" => return .throwStatement (← r.node "argument")
  | "TryStatement" =>
    return .tryStatement (← r.node "block") (← r.node? "handler") (← r.node? "finalizer")
  | "CatchClause" => return .catchClause (← r.node? "param") (← r.node "body")
  | "WhileStatement" => return .whileStatement (← r.node "test") (← r.node "body")
  | "DoWhileStatement" => return .doWhileStatement (← r.node "body") (← r.node "test")
  | "ForStatement" =>
    return .forStatement (← r.node? "init") (← r.node? "test") (← r.node? "update")
      (← r.node "body")
  | "ForInStatement" =>
    return .forInStatement (← r.node "left") (← r.node "right") (← r.node "body")
  | "ForOfStatement" =>
    return .forOfStatement (← r.node "left") (← r.node "right") (← r.node "body")
      (← r.flag "isAwait")
  | "VariableDeclaration" =>
    return .variableDeclaration (← r.choice VariableKind.ofText? "kind")
      (← r.nodes "declarations")
  | "VariableDeclarator" => return .variableDeclarator (← r.node "id") (← r.node? "init")
  | "ClassBody" => return .classBody (← r.nodes "body")
  | "MethodDefinition" =>
    return .methodDefinition {
      key := ← r.node "key"
      value := ← r.node "value"
      kind := ← r.choiceOr MethodKind.ofText? "kind" .method
      computed := ← r.flag "computed"
      isStatic := ← r.flag "isStatic" }
  | "PropertyDefinition" =>
    return .propertyDefinition {
      key := ← r.node "key"
      value := ← r.node? "value"
      computed := ← r.flag "computed"
      isStatic := ← r.flag "isStatic" }
  | "StaticBlock" => return .staticBlock (← r.nodes "body")
  | "ImportDeclaration" =>
    return .importDeclaration (← r.nodes "specifiers") (← r.node "source")
      (← r.choiceOr ImportKind.ofText? "importKind" .value)
  | "ImportSpecifier" =>
    return .importSpecifier (← r.node "imported") (← r.node "local")
      (← r.choiceOr ImportKind.ofText? "importKind" .value)
  | "ImportDefaultSpecifier" => return .importDefaultSpecifier (← r.node "local")
  | "ImportNamespaceSpecifier" => return .importNamespaceSpecifier (← r.node "local")
  | "ExportNamedDeclaration" =>
    return .exportNamedDeclaration (← r.node? "declaration") (← r.nodes "specifiers")
      (← r.node? "source")
  | "ExportSpecifier" => return .exportSpecifier (← r.node "local") (← r.node "exported")
  | "ExportDefaultDeclaration" => return .exportDefaultDeclaration (← r.node "declaration")
  | "ExportAllDeclaration" =>
    return .exportAllDeclaration (← r.node? "exported") (← r.node "source")
  | _ => none

end LexicalScope
