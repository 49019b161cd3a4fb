import LexicalScope.Scope.Basic

/-!
The steps of a walk over a program, as far as scopes are concerned: entering and leaving scopes,
declaring names, referring to them. A list of steps holds everything that the scope graph of a
program needs to know of its syntax.
-/
namespace LexicalScope

/-- The scope that a declaration goes to, seen from where it stands. -/
inductive Place where
  | current
  | variableScope
deriving DecidableEq

/-- An identifier that stands for a variable. -/
structure Occurrence (ν : Type) where
  identifier : NodeId
  name : ν
  access : Access
  writeExpr : Option NodeId := none
  partialWrite : Bool := false
  init : Bool := false
  /-- The assignment or loop that would create a global here in sloppy code. -/
  assignment : Option NodeId := none

inductive Step (ν : Type) where
  | enter (kind : ScopeKind) (block : NodeId) (strict : Bool)
  | leave (block : NodeId)
  | declare (place : Place) (name : ν) (definition : Option Definition)
  | refer (occurrence : Occurrence ν)
  | this
  | misplacedImport (declaration : NodeId)

namespace Step

variable {ν : Type}

def name? : Step ν → Option ν
  | declare _ name _ => some name
  | refer o => some o.name
  | _ => none

def misplacedImport? : Step ν → Option NodeId
  | misplacedImport n => some n
  | _ => none

def mapName {μ : Type} (f : ν → μ) : Step ν → Step μ
  | enter kind block strict => enter kind block strict
  | leave block => leave block
  | declare place name definition => declare place (f name) definition
  | refer o => refer { o with name := f o.name }
  | this => this
  | misplacedImport n => misplacedImport n

/-- The steps that a walk takes before an import in the wrong place stops it. -/
def reached (steps : List (Step ν)) : List (Step ν) :=
  steps.takeWhile (·.misplacedImport?.isNone)

end Step

end LexicalScope
