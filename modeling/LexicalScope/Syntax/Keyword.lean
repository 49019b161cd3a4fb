/-!
The small enumerations of JavaScript syntax, each with its spellings. `text` is the spelling and
`ofText?` reads it back.
-/
namespace LexicalScope

def spelled? {α : Type} (text : α → String) (all : List α) (s : String) : Option α :=
  all.find? fun a => text a = s

/-- The goal of a program. A CommonJS file is a script with a function around it. -/
inductive SourceType where
  | script | module | commonjs
deriving DecidableEq

namespace SourceType

def text : SourceType → String
  | script => "script"
  | module => "module"
  | commonjs => "commonjs"

def all : List SourceType :=
  [.script, .module, .commonjs]

def ofText? : String → Option SourceType :=
  spelled? text all

end SourceType

/-- The keyword of a variable declaration. -/
inductive VariableKind where
  | varDecl | letDecl | constDecl | usingDecl | awaitUsingDecl
deriving DecidableEq

namespace VariableKind

def text : VariableKind → String
  | varDecl => "var"
  | letDecl => "let"
  | constDecl => "const"
  | usingDecl => "using"
  | awaitUsingDecl => "await using"

def all : List VariableKind :=
  [.varDecl, .letDecl, .constDecl, .usingDecl, .awaitUsingDecl]

def ofText? : String → Option VariableKind :=
  spelled? text all

end VariableKind

inductive PropertyKind where
  | init | get | set
deriving DecidableEq

namespace PropertyKind

def text : PropertyKind → String
  | init => "init"
  | get => "get"
  | set => "set"

def all : List PropertyKind :=
  [.init, .get, .set]

def ofText? : String → Option PropertyKind :=
  spelled? text all

end PropertyKind

inductive MethodKind where
  | constructor | method | get | set
deriving DecidableEq

namespace MethodKind

def text : MethodKind → String
  | constructor => "constructor"
  | method => "method"
  | get => "get"
  | set => "set"

def all : List MethodKind :=
  [.constructor, .method, .get, .set]

def ofText? : String → Option MethodKind :=
  spelled? text all

end MethodKind

/-- An import of kind `type` brings in types alone. -/
inductive ImportKind where
  | value | type
deriving DecidableEq

namespace ImportKind

def text : ImportKind → String
  | value => "value"
  | type => "type"

def all : List ImportKind :=
  [.value, .type]

def ofText? : String → Option ImportKind :=
  spelled? text all

end ImportKind

inductive CommentKind where
  | line | block
deriving DecidableEq

namespace CommentKind

def text : CommentKind → String
  | line => "line"
  | block => "block"

def all : List CommentKind :=
  [.line, .block]

def ofText? : String → Option CommentKind :=
  spelled? text all

end CommentKind

inductive UpdateOperator where
  | increment | decrement
deriving DecidableEq

namespace UpdateOperator

def text : UpdateOperator → String
  | increment => "++"
  | decrement => "--"

def all : List UpdateOperator :=
  [.increment, .decrement]

def ofText? : String → Option UpdateOperator :=
  spelled? text all

end UpdateOperator

inductive UnaryOperator where
  | minus | plus | not | bitNot | typeof | void | delete
deriving DecidableEq

namespace UnaryOperator

def text : UnaryOperator → String
  | minus => "-"
  | plus => "+"
  | not => "!"
  | bitNot => "~"
  | typeof => "typeof"
  | void => "void"
  | delete => "delete"

def all : List UnaryOperator :=
  [.minus, .plus, .not, .bitNot, .typeof, .void, .delete]

def ofText? : String → Option UnaryOperator :=
  spelled? text all

end UnaryOperator

inductive LogicalOperator where
  | or | and | coalesce
deriving DecidableEq

namespace LogicalOperator

def text : LogicalOperator → String
  | or => "||"
  | and => "&&"
  | coalesce => "??"

def all : List LogicalOperator :=
  [.or, .and, .coalesce]

def ofText? : String → Option LogicalOperator :=
  spelled? text all

end LogicalOperator

inductive BinaryOperator where
  | equal | notEqual | strictEqual | strictNotEqual | less | lessEqual | greater | greaterEqual
  | add | subtract | multiply | divide | remainder | power | shiftLeft | shiftRight
  | shiftRightUnsigned | bitOr | bitXor | bitAnd | memberOf | instanceOf
deriving DecidableEq

namespace BinaryOperator

def text : BinaryOperator → String
  | equal => "=="
  | notEqual => "!="
  | strictEqual => "==="
  | strictNotEqual => "!=="
  | less => "<"
  | lessEqual => "<="
  | greater => ">"
  | greaterEqual => ">="
  | add => "+"
  | subtract => "-"
  | multiply => "*"
  | divide => "/"
  | remainder => "%"
  | power => "**"
  | shiftLeft => "<<"
  | shiftRight => ">>"
  | shiftRightUnsigned => ">>>"
  | bitOr => "|"
  | bitXor => "^"
  | bitAnd => "&"
  | memberOf => "in"
  | instanceOf => "instanceof"

def all : List BinaryOperator :=
  [.equal, .notEqual, .strictEqual, .strictNotEqual, .less, .lessEqual, .greater, .greaterEqual,
   .add, .subtract, .multiply, .divide, .remainder, .power, .shiftLeft, .shiftRight,
   .shiftRightUnsigned, .bitOr, .bitXor, .bitAnd, .memberOf, .instanceOf]

def ofText? : String → Option BinaryOperator :=
  spelled? text all

end BinaryOperator

/-- The plain `=` is `assign`; all others also read their target. -/
inductive AssignmentOperator where
  | assign | add | subtract | multiply | divide | remainder | power | shiftLeft | shiftRight
  | shiftRightUnsigned | bitOr | bitXor | bitAnd | logicalOr | logicalAnd | coalesce
deriving DecidableEq

namespace AssignmentOperator

def text : AssignmentOperator → String
  | assign => "="
  | add => "+="
  | subtract => "-="
  | multiply => "*="
  | divide => "/="
  | remainder => "%="
  | power => "**="
  | shiftLeft => "<<="
  | shiftRight => ">>="
  | shiftRightUnsigned => ">>>="
  | bitOr => "|="
  | bitXor => "^="
  | bitAnd => "&="
  | logicalOr => "||="
  | logicalAnd => "&&="
  | coalesce => "??="

def all : List AssignmentOperator :=
  [.assign, .add, .subtract, .multiply, .divide, .remainder, .power, .shiftLeft, .shiftRight,
   .shiftRightUnsigned, .bitOr, .bitXor, .bitAnd, .logicalOr, .logicalAnd, .coalesce]

def ofText? : String → Option AssignmentOperator :=
  spelled? text all

end AssignmentOperator

end LexicalScope
