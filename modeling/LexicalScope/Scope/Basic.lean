import LexicalScope.Scope.Reference
import LexicalScope.Table.OrderedMap

/-!
Lexical scopes. A scope is anchored at the node that opens it. It keeps the names declared in
it, the references made directly in it, and those it could not resolve.
-/
namespace LexicalScope

inductive ScopeKind where
  | block | catchClause | classBody | fieldInitializer | staticBlock | forLoop | function
  | functionName | global | module | switchBody | withBody
deriving DecidableEq

namespace ScopeKind

def text : ScopeKind → String
  | block => "block"
  | catchClause => "catch"
  | classBody => "class"
  | fieldInitializer => "class-field-initializer"
  | staticBlock => "class-static-block"
  | forLoop => "for"
  | function => "function"
  | functionName => "function-expression-name"
  | global => "global"
  | module => "module"
  | switchBody => "switch"
  | withBody => "with"

/-- Whether `var` declarations of inner scopes end up here. -/
def holdsVars : ScopeKind → Bool
  | global | module | function | fieldInitializer | staticBlock => true
  | _ => false

def isDynamic : ScopeKind → Bool
  | global | withBody => true
  | _ => false

end ScopeKind

structure Scope (ν : Type) where
  id : ScopeId
  kind : ScopeKind
  isStrict : Bool
  upper : Option ScopeId
  children : Array ScopeId := #[]
  /-- The nearest scope from here upwards that holds `var` declarations. -/
  variableScope : ScopeId
  block : NodeId
  /-- What each name declared here stands for, oldest name first. -/
  table : OrderedMap ν VariableId := {}
  references : Array ReferenceId := #[]
  through : Array ReferenceId := #[]
  /-- Whether a `this` belongs to this scope; only scopes that hold `var`s have one. -/
  thisFound : Bool := false
  /-- References that wait for the scope to close. -/
  pending : Array ReferenceId := #[]

namespace Scope

variable {ν : Type}

def isGlobal (s : Scope ν) : Bool :=
  s.kind = .global

def mapNames {μ : Type} [DecidableEq ν] [DecidableEq μ] (f : ν → μ) (s : Scope ν) : Scope μ :=
  { s with table := s.table.mapKeys f }

end Scope

/-- The variables that sloppy assignments to undeclared names create. They stay apart from the
global table. -/
structure ImplicitGlobals (ν : Type) where
  table : OrderedMap ν VariableId := {}
  /-- The references pending in the global scope at its closing. -/
  left : Array ReferenceId := #[]

def ImplicitGlobals.mapNames {ν μ : Type} [DecidableEq ν] [DecidableEq μ] (f : ν → μ)
    (g : ImplicitGlobals ν) : ImplicitGlobals μ :=
  { g with table := g.table.mapKeys f }

end LexicalScope
