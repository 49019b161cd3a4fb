import LexicalScope.Number.Double
import LexicalScope.Syntax.Keyword
import LexicalScope.Text.Span

/-!
Nodes of an ESTree syntax tree. A node names its children by number; an absent optional child is
`none`, and so is a hole in an array. `children` lists the direct children in the order of the
visitor keys; analysis walks down in this order where no rule says otherwise.
-/
namespace LexicalScope

structure NodeId where
  index : Nat
deriving DecidableEq

def NodeId.text (n : NodeId) : String :=
  "#" ++ toString n.index

/-- The meaning of a literal, apart from its spelling in the source. -/
inductive LiteralValue where
  | string (value : String)
  | number (value : Double)
  | boolean (value : Bool)
  | null
  | bigint (digits : String)
  | regexp (pattern flags : String)

/-- Function declarations and function expressions. Only a declaration may lack its body. -/
structure Function where
  id : Option NodeId
  params : List NodeId
  body : Option NodeId
  isAsync : Bool := false
  generator : Bool := false

/-- The body is a block, or an expression if `expression` is set. -/
structure ArrowFunction where
  params : List NodeId
  body : NodeId
  expression : Bool
  isAsync : Bool := false

/-- Class declarations and class expressions. -/
structure Class where
  id : Option NodeId
  superClass : Option NodeId
  body : NodeId

/-- A member of an object literal or of an object pattern. -/
structure Property where
  key : NodeId
  value : NodeId
  kind : PropertyKind := .init
  computed : Bool := false
  shorthand : Bool := false
  method : Bool := false

structure MethodDefinition where
  key : NodeId
  value : NodeId
  kind : MethodKind
  computed : Bool := false
  isStatic : Bool

structure PropertyDefinition where
  key : NodeId
  value : Option NodeId
  computed : Bool := false
  isStatic : Bool

inductive NodeKind where
  | program (body : List NodeId) (sourceType : SourceType)
  | identifier (name : String)
  | privateIdentifier (name : String)
  | literal (value : LiteralValue) (raw : Option String)
  | templateLiteral (quasis expressions : List NodeId)
  | templateElement (raw : String) (cooked : Option String) (tail : Bool)
  | thisExpression
  | superExpression
  | arrayExpression (elements : List (Option NodeId))
  | objectExpression (properties : List NodeId)
  | property (p : Property)
  | functionExpression (f : Function)
  | arrowFunctionExpression (f : ArrowFunction)
  | classExpression (c : Class)
  | unaryExpression (operator : UnaryOperator) (argument : NodeId)
  | updateExpression (operator : UpdateOperator) (isPrefix : Bool) (argument : NodeId)
  | binaryExpression (operator : BinaryOperator) (left right : NodeId)
  | logicalExpression (operator : LogicalOperator) (left right : NodeId)
  | assignmentExpression (operator : AssignmentOperator) (left right : NodeId)
  | conditionalExpression (test consequent alternate : NodeId)
  | callExpression (callee : NodeId) (arguments : List NodeId) (optional : Bool)
  | newExpression (callee : NodeId) (arguments : List NodeId)
  | memberExpression (object key : NodeId) (computed optional : Bool)
  | chainExpression (expression : NodeId)
  | sequenceExpression (expressions : List NodeId)
  | yieldExpression (argument : Option NodeId) (delegate : Bool)
  | awaitExpression (argument : NodeId)
  | taggedTemplateExpression (tag quasi : NodeId)
  | metaProperty (object key : NodeId)
  | spreadElement (argument : NodeId)
  | importExpression (source : NodeId) (options : Option NodeId)
  | objectPattern (properties : List NodeId)
  | arrayPattern (elements : List (Option NodeId))
  | restElement (argument : NodeId)
  | assignmentPattern (left right : NodeId)
  | expressionStatement (expression : NodeId) (directive : Option String)
  | blockStatement (body : List NodeId)
  | emptyStatement
  | debuggerStatement
  | withStatement (object body : NodeId)
  | returnStatement (argument : Option NodeId)
  | labeledStatement (label body : NodeId)
  | breakStatement (label : Option NodeId)
  | continueStatement (label : Option NodeId)
  | ifStatement (test consequent : NodeId) (alternate : Option NodeId)
  | switchStatement (discriminant : NodeId) (cases : List NodeId)
  | switchCase (test : Option NodeId) (consequent : List NodeId)
  | throwStatement (argument : NodeId)
  | tryStatement (block : NodeId) (handler finalizer : Option NodeId)
  | catchClause (param : Option NodeId) (body : NodeId)
  | whileStatement (test body : NodeId)
  | doWhileStatement (body test : NodeId)
  | forStatement (start test update : Option NodeId) (body : NodeId)
  | forInStatement (left right body : NodeId)
  | forOfStatement (left right body : NodeId) (isAwait : Bool)
  | functionDeclaration (f : Function)
  | variableDeclaration (kind : VariableKind) (declarations : List NodeId)
  | variableDeclarator (id : NodeId) (init : Option NodeId)
  | classDeclaration (c : Class)
  | classBody (body : List NodeId)
  | methodDefinition (m : MethodDefinition)
  | propertyDefinition (p : PropertyDefinition)
  | staticBlock (body : List NodeId)
  | importDeclaration (specifiers : List NodeId) (source : NodeId) (importKind : ImportKind)
  | importSpecifier (imported localName : NodeId) (importKind : ImportKind)
  | importDefaultSpecifier (localName : NodeId)
  | importNamespaceSpecifier (localName : NodeId)
  | exportNamedDeclaration (declaration : Option NodeId) (specifiers : List NodeId)
      (source : Option NodeId)
  | exportSpecifier (localName exported : NodeId)
  | exportDefaultDeclaration (declaration : NodeId)
  | exportAllDeclaration (exported : Option NodeId) (source : NodeId)

namespace NodeKind

def typeName : NodeKind → String
  | program .. => "Program"
  | identifier .. => "Identifier"
  | privateIdentifier .. => "PrivateIdentifier"
  | literal .. => "Literal"
  | templateLiteral .. => "TemplateLiteral"
  | templateElement .. => "TemplateElement"
  | thisExpression => "ThisExpression"
  | superExpression => "Super"
  | arrayExpression .. => "ArrayExpression"
  | objectExpression .. => "ObjectExpression"
  | property .. => "Property"
  | functionExpression .. => "FunctionExpression"
  | arrowFunctionExpression .. => "ArrowFunctionExpression"
  | classExpression .. => "ClassExpression"
  | unaryExpression .. => "UnaryExpression"
  | updateExpression .. => "UpdateExpression"
  | binaryExpression .. => "BinaryExpression"
  | logicalExpression .. => "LogicalExpression"
  | assignmentExpression .. => "AssignmentExpression"
  | conditionalExpression .. => "ConditionalExpression"
  | callExpression .. => "CallExpression"
  | newExpression .. => "NewExpression"
  | memberExpression .. => "MemberExpression"
  | chainExpression .. => "ChainExpression"
  | sequenceExpression .. => "SequenceExpression"
  | yieldExpression .. => "YieldExpression"
  | awaitExpression .. => "AwaitExpression"
  | taggedTemplateExpression .. => "TaggedTemplateExpression"
  | metaProperty .. => "MetaProperty"
  | spreadElement .. => "SpreadElement"
  | importExpression .. => "ImportExpression"
  | objectPattern .. => "ObjectPattern"
  | arrayPattern .. => "ArrayPattern"
  | restElement .. => "RestElement"
  | assignmentPattern .. => "AssignmentPattern"
  | expressionStatement .. => "ExpressionStatement"
  | blockStatement .. => "BlockStatement"
  | emptyStatement => "EmptyStatement"
  | debuggerStatement => "DebuggerStatement"
  | withStatement .. => "WithStatement"
  | returnStatement .. => "ReturnStatement"
  | labeledStatement .. => "LabeledStatement"
  | breakStatement .. => "BreakStatement"
  | continueStatement .. => "ContinueStatement"
  | ifStatement .. => "IfStatement"
  | switchStatement .. => "SwitchStatement"
  | switchCase .. => "SwitchCase"
  | throwStatement .. => "ThrowStatement"
  | tryStatement .. => "TryStatement"
  | catchClause .. => "CatchClause"
  | whileStatement .. => "WhileStatement"
  | doWhileStatement .. => "DoWhileStatement"
  | forStatement .. => "ForStatement"
  | forInStatement .. => "ForInStatement"
  | forOfStatement .. => "ForOfStatement"
  | functionDeclaration .. => "FunctionDeclaration"
  | variableDeclaration .. => "VariableDeclaration"
  | variableDeclarator .. => "VariableDeclarator"
  | classDeclaration .. => "ClassDeclaration"
  | classBody .. => "ClassBody"
  | methodDefinition .. => "MethodDefinition"
  | propertyDefinition .. => "PropertyDefinition"
  | staticBlock .. => "StaticBlock"
  | importDeclaration .. => "ImportDeclaration"
  | importSpecifier .. => "ImportSpecifier"
  | importDefaultSpecifier .. => "ImportDefaultSpecifier"
  | importNamespaceSpecifier .. => "ImportNamespaceSpecifier"
  | exportNamedDeclaration .. => "ExportNamedDeclaration"
  | exportSpecifier .. => "ExportSpecifier"
  | exportDefaultDeclaration .. => "ExportDefaultDeclaration"
  | exportAllDeclaration .. => "ExportAllDeclaration"

/-- The direct children in visitor-key order; holes are skipped. -/
def children : NodeKind → List NodeId
  | program body _ => body
  | identifier _ | privateIdentifier _ | literal .. | templateElement .. => []
  | thisExpression | superExpression | emptyStatement | debuggerStatement => []
  | templateLiteral quasis expressions => quasis ++ expressions
  | arrayExpression elements | arrayPattern elements => elements.filterMap id
  | objectExpression properties | objectPattern properties => properties
  | property p => [p.key, p.value]
  | functionExpression f | functionDeclaration f => f.id.toList ++ f.params ++ f.body.toList
  | arrowFunctionExpression f => f.params ++ [f.body]
  | classExpression c | classDeclaration c => c.id.toList ++ c.superClass.toList ++ [c.body]
  | unaryExpression _ argument | updateExpression _ _ argument | awaitExpression argument
  | spreadElement argument | restElement argument | throwStatement argument => [argument]
  | binaryExpression _ left right | logicalExpression _ left right
  | assignmentExpression _ left right | assignmentPattern left right => [left, right]
  | conditionalExpression test consequent alternate => [test, consequent, alternate]
  | callExpression callee arguments _ | newExpression callee arguments => callee :: arguments
  | memberExpression object key _ _ => [object, key]
  | chainExpression expression | expressionStatement expression _ => [expression]
  | sequenceExpression expressions => expressions
  | yieldExpression argument _ | returnStatement argument => argument.toList
  | taggedTemplateExpression tag quasi => [tag, quasi]
  | metaProperty object key => [object, key]
  | importExpression source options => source :: options.toList
  | blockStatement body | classBody body | staticBlock body => body
  | withStatement object body => [object, body]
  | labeledStatement label body => [label, body]
  | breakStatement label | continueStatement label => label.toList
  | ifStatement test consequent alternate => test :: consequent :: alternate.toList
  | switchStatement discriminant cases => discriminant :: cases
  | switchCase test consequent => test.toList ++ consequent
  | tryStatement block handler finalizer => block :: (handler.toList ++ finalizer.toList)
  | catchClause param body => param.toList ++ [body]
  | whileStatement test body => [test, body]
  | doWhileStatement body test => [body, test]
  | forStatement start test update body =>
    start.toList ++ test.toList ++ update.toList ++ [body]
  | forInStatement left right body | forOfStatement left right body _ => [left, right, body]
  | variableDeclaration _ declarations => declarations
  | variableDeclarator id init => id :: init.toList
  | methodDefinition m => [m.key, m.value]
  | propertyDefinition p => p.key :: p.value.toList
  | importDeclaration specifiers source _ => specifiers ++ [source]
  | importSpecifier imported localName _ => [imported, localName]
  | importDefaultSpecifier localName | importNamespaceSpecifier localName => [localName]
  | exportNamedDeclaration declaration specifiers source =>
    declaration.toList ++ specifiers ++ source.toList
  | exportSpecifier localName exported => [exported, localName]
  | exportDefaultDeclaration declaration => [declaration]
  | exportAllDeclaration exported source => exported.toList ++ [source]

def isProgram : NodeKind → Bool
  | program .. => true
  | _ => false

def isIdentifier : NodeKind → Bool
  | identifier _ => true
  | _ => false

/-- The name of an identifier; private names do not count. -/
def identifierName? : NodeKind → Option String
  | identifier name => some name
  | _ => none

def mentionedName? : NodeKind → Option String
  | identifier name | privateIdentifier name => some name
  | _ => none

def isFunction : NodeKind → Bool
  | functionDeclaration _ | functionExpression _ | arrowFunctionExpression _ => true
  | _ => false

def functionParams? : NodeKind → Option (List NodeId)
  | functionDeclaration f | functionExpression f => some f.params
  | arrowFunctionExpression f => some f.params
  | _ => none

def functionBody? : NodeKind → Option NodeId
  | functionDeclaration f | functionExpression f => f.body
  | arrowFunctionExpression f => some f.body
  | _ => none

def isPattern : NodeKind → Bool
  | identifier _ | objectPattern _ | arrayPattern _ => true
  | spreadElement _ | restElement _ | assignmentPattern .. => true
  | _ => false

end NodeKind

structure CommentId where
  index : Nat
deriving DecidableEq

/-- A comment; `text` excludes the delimiters. -/
structure Comment where
  kind : CommentKind
  text : String
  span : Span := {}

def Comment.isBlock (c : Comment) : Bool :=
  c.kind = .block

end LexicalScope
