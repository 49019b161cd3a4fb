import LexicalScope.Scope.Variable

/-!
References: occurrences of identifiers that stand for a variable, with what they do to it.
-/
namespace LexicalScope

/-- Whether an occurrence reads its variable, writes it, or both. -/
structure Access where
  reads : Bool
  writes : Bool
deriving DecidableEq

namespace Access

def read : Access := ⟨true, false⟩

def write : Access := ⟨false, true⟩

def readWrite : Access := ⟨true, true⟩

def isReadOnly (a : Access) : Bool :=
  a = read

def isWriteOnly (a : Access) : Bool :=
  a = write

def isReadWrite (a : Access) : Bool :=
  a = readWrite

def text (a : Access) : String :=
  (if a.reads then if a.writes then "RW" else "READ" else if a.writes then "WRITE" else "")

end Access

/-- An assignment in sloppy code that creates a global if its target is undeclared. -/
structure ImplicitSite where
  /-- The assigned identifier. -/
  pattern : NodeId
  /-- The assignment expression or loop. -/
  node : NodeId
deriving DecidableEq

structure Reference (ν : Type) where
  id : ReferenceId
  identifier : NodeId
  name : ν
  /-- The scope in which the occurrence stands. -/
  origin : ScopeId
  resolved : Option VariableId := none
  access : Access
  writeExpr : Option NodeId := none
  /-- The write goes to a part of a destructuring pattern. -/
  partialWrite : Bool := false
  /-- The write initialises a declaration. -/
  init : Bool := false
  /-- Whether it passed through a `with` body on its way up. -/
  tainted : Bool := false
  site : Option ImplicitSite := none
deriving DecidableEq

namespace Reference

variable {ν : Type}

def isResolved (r : Reference ν) : Bool :=
  r.resolved.isSome

def mapName {μ : Type} (f : ν → μ) (r : Reference ν) : Reference μ :=
  { r with name := f r.name }

end Reference

end LexicalScope
