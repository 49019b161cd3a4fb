import LexicalScope.Options.GlobalValue
import LexicalScope.Syntax.Node

/-!
Variables and their definitions. A variable that the source declares has one definition per
declaration site; one that configuration or a function brings in has none.
-/
namespace LexicalScope

structure ScopeId where
  index : Nat
deriving DecidableEq

structure VariableId where
  index : Nat
deriving DecidableEq

structure ReferenceId where
  index : Nat
deriving DecidableEq

def ScopeId.global : ScopeId := ⟨0⟩

def ScopeId.text (s : ScopeId) : String :=
  "scope#" ++ toString s.index

inductive DefinitionKind where
  | catchClause | className | functionName | implicitGlobal | importBinding | parameter
  | variableName
deriving DecidableEq

def DefinitionKind.text : DefinitionKind → String
  | catchClause => "CatchClause"
  | className => "ClassName"
  | functionName => "FunctionName"
  | implicitGlobal => "ImplicitGlobalVariable"
  | importBinding => "ImportBinding"
  | parameter => "Parameter"
  | variableName => "Variable"

/-- One place that declares a variable: the identifier there, and the syntax that makes it a
declaration, from a declarator to the assignment behind an implicit global. -/
structure Definition where
  kind : DefinitionKind
  name : NodeId
  node : NodeId
  /-- The declaration statement of a variable or an import. -/
  parent : Option NodeId := none
  /-- The place of the declarator or parameter. -/
  index : Option Nat := none
  rest : Bool := false
  variableKind : Option VariableKind := none
  typeOnly : Bool := false
deriving DecidableEq

namespace Definition

def ofParameter (name function : NodeId) (index : Nat) (rest : Bool) : Definition where
  kind := .parameter
  name
  node := function
  index := some index
  rest

def ofDeclarator (name declarator declaration : NodeId) (index : Nat) (kind : VariableKind) :
    Definition where
  kind := .variableName
  name
  node := declarator
  parent := some declaration
  index := some index
  variableKind := some kind

/-- Bindings that keep their place: `let`, `const`, `using` and classes. -/
def isLexical (d : Definition) : Bool :=
  match d.kind with
  | .className => true
  | .variableName => d.variableKind.any (· ≠ .varDecl)
  | _ => false

end Definition

structure Variable (ν : Type) where
  id : VariableId
  name : ν
  scope : ScopeId
  /-- The identifiers at the declaration sites, in order. -/
  identifiers : Array NodeId := #[]
  references : Array ReferenceId := #[]
  definitions : Array Definition := #[]
  /-- Whether it is referred to from inside a `with` body. -/
  tainted : Bool := false
  /-- Known for configured globals only. -/
  writable : Option Bool := none
  used : Bool := false
  exported : Bool := false
  /-- Whether a directive comment declares it. -/
  explicitGlobal : Bool := false
  explicitGlobalComments : List CommentId := []
  /-- How an environment or the configuration sets this global. -/
  implicitGlobalSetting : Option GlobalValue := none
deriving DecidableEq

namespace Variable

variable {ν : Type}

def define (v : Variable ν) (d : Definition) : Variable ν :=
  { v with definitions := v.definitions.push d, identifiers := v.identifiers.push d.name }

def ofDefinitions (id : VariableId) (name : ν) (scope : ScopeId) (ds : List Definition) :
    Variable ν where
  id
  name
  scope
  definitions := ds.toArray

def isDeclared (v : Variable ν) : Bool :=
  !v.definitions.isEmpty

def isType (v : Variable ν) : Bool :=
  v.definitions.isEmpty ||
    v.definitions.any fun d => d.kind = .importBinding || d.kind = .className

def isValue (v : Variable ν) : Bool :=
  v.definitions.isEmpty ||
    v.definitions.any fun d => !(d.kind = .importBinding && d.typeOnly)

/-- Whether a top-level variable is out of reach of the configuration. -/
def isLexical (v : Variable ν) : Bool :=
  v.isDeclared && v.definitions.all Definition.isLexical

def mapName {μ : Type} (f : ν → μ) (v : Variable ν) : Variable μ :=
  { v with name := f v.name }

end Variable

end LexicalScope
