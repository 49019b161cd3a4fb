import LexicalScope.Scope.Basic
import LexicalScope.Syntax.Tree
import LexicalScope.Table.MultiMap

/-!
The scope graph of one file: its scopes, variables and references, each numbered in the order
in which it was made, with the links between them. Two indexes lead from a node to the scopes
anchored at it and to the variables it declares. Names only need to be comparable.
-/
namespace LexicalScope

structure ScopeGraph (ν : Type) where
  scopes : Array (Scope ν) := #[]
  bindings : Array (Variable ν) := #[]
  references : Array (Reference ν) := #[]
  anchors : MultiMap NodeId ScopeId := {}
  declared : MultiMap NodeId VariableId := {}
  implicit : ImplicitGlobals ν := {}

namespace ScopeGraph

variable {ν : Type}

def getScope? (g : ScopeGraph ν) (s : ScopeId) : Option (Scope ν) :=
  g.scopes[s.index]?

def getVariable? (g : ScopeGraph ν) (v : VariableId) : Option (Variable ν) :=
  g.bindings[v.index]?

def getReference? (g : ScopeGraph ν) (r : ReferenceId) : Option (Reference ν) :=
  g.references[r.index]?

def globalScope? (g : ScopeGraph ν) : Option (Scope ν) :=
  g.getScope? .global

/-- The scopes anchored at a node, outermost first. -/
def scopesOf (g : ScopeGraph ν) (n : NodeId) : List ScopeId :=
  g.anchors.valuesAt n

/-- The variables that `n` declares: it is the node or the parent of one of their definitions. -/
def declaredVariables (g : ScopeGraph ν) (n : NodeId) : List VariableId :=
  g.declared.valuesAt n

/-- The scope anchored at a node: the outermost one, or the innermost if `inner` is set. The
scope of a function's own name gives way to the function scope inside it. -/
def acquire (g : ScopeGraph ν) (n : NodeId) (inner : Bool) : Option ScopeId := do
  let anchored := g.scopesOf n
  let found ← if inner then anchored.getLast? else anchored.head?
  let scope ← g.getScope? found
  if scope.kind = .functionName then scope.children[0]? else found

def chainWithin (g : ScopeGraph ν) : Nat → ScopeId → List ScopeId
  | 0, _ => []
  | fuel + 1, s => s :: ((g.getScope? s).bind (·.upper)).elim [] (chainWithin g fuel)

/-- A scope and all scopes around it, innermost first. Outer scopes have smaller numbers, so
the chain is no longer than the list of scopes. -/
def chain (g : ScopeGraph ν) (s : ScopeId) : List ScopeId :=
  g.chainWithin g.scopes.size s

variable [DecidableEq ν]

def inTable? (g : ScopeGraph ν) (s : ScopeId) (name : ν) : Option VariableId :=
  (g.getScope? s).bind (·.table.get? name)

def findVariable? (g : ScopeGraph ν) (s : ScopeId) (name : ν) : Option VariableId :=
  (g.chain s).findSome? (g.inTable? · name)

def globalVariable? (g : ScopeGraph ν) (name : ν) : Option VariableId :=
  g.inTable? .global name

def implicitGlobals (g : ScopeGraph ν) : List VariableId :=
  g.implicit.table.values

def isStrict (g : ScopeGraph ν) (s : ScopeId) : Bool :=
  (g.getScope? s).any (·.isStrict)

def variableScope (g : ScopeGraph ν) (s : ScopeId) : ScopeId :=
  (g.getScope? s).elim s (·.variableScope)

def modifyScope (g : ScopeGraph ν) (s : ScopeId) (f : Scope ν → Scope ν) : ScopeGraph ν :=
  { g with scopes := g.scopes.modify s.index f }

def modifyVariable (g : ScopeGraph ν) (v : VariableId) (f : Variable ν → Variable ν) :
    ScopeGraph ν :=
  { g with bindings := g.bindings.modify v.index f }

def modifyReference (g : ScopeGraph ν) (r : ReferenceId) (f : Reference ν → Reference ν) :
    ScopeGraph ν :=
  { g with references := g.references.modify r.index f }

def nextScope (g : ScopeGraph ν) : ScopeId :=
  ⟨g.scopes.size⟩

def nextVariable (g : ScopeGraph ν) : VariableId :=
  ⟨g.bindings.size⟩

def nextReference (g : ScopeGraph ν) : ReferenceId :=
  ⟨g.references.size⟩

def openScope (g : ScopeGraph ν) (kind : ScopeKind) (block : NodeId) (strict : Bool)
    (upper : Option ScopeId) : ScopeGraph ν :=
  let id := g.nextScope
  let variableScope := if kind.holdsVars then id else upper.elim id g.variableScope
  let isStrict := strict || upper.any g.isStrict
  let entered := upper.elim g fun u =>
    g.modifyScope u fun s => { s with children := s.children.push id }
  { entered with
    scopes := entered.scopes.push { id, kind, isStrict, upper, variableScope, block }
    anchors := g.anchors.insert block id }

def addVariable (g : ScopeGraph ν) (scope : ScopeId) (name : ν) : ScopeGraph ν :=
  { g with bindings := g.bindings.push { id := g.nextVariable, name, scope } }

/-- Gives a variable one more definition and lists it under the nodes of that definition. -/
def define (g : ScopeGraph ν) (v : VariableId) (d : Definition) : ScopeGraph ν :=
  let declared := g.declared.insert d.node v
  { g.modifyVariable v (·.define d) with
    declared := d.parent.elim declared (declared.insert · v) }

def bind (g : ScopeGraph ν) (s : ScopeId) (name : ν) : ScopeGraph ν × VariableId :=
  match g.inTable? s name with
  | some v => (g, v)
  | none =>
    let v := g.nextVariable
    ((g.addVariable s name).modifyScope s fun s => { s with table := s.table.insert name v }, v)

def bindImplicit (g : ScopeGraph ν) (name : ν) : ScopeGraph ν × VariableId :=
  match g.implicit.table.get? name with
  | some v => (g, v)
  | none =>
    let v := g.nextVariable
    ({ g.addVariable .global name with
        implicit := { g.implicit with table := g.implicit.table.insert name v } }, v)

/-- Declares `name` in the table of `s`; without a definition for names that are merely there. -/
def declare (g : ScopeGraph ν) (s : ScopeId) (name : ν) (definition : Option Definition) :
    ScopeGraph ν :=
  let (g, v) := g.bind s name
  definition.elim g (g.define v)

def declareImplicit (g : ScopeGraph ν) (name : ν) (definition : Definition) : ScopeGraph ν :=
  let (g, v) := g.bindImplicit name
  g.define v definition

def addReference (g : ScopeGraph ν) (r : Reference ν) : ScopeGraph ν :=
  let id := g.nextReference
  let entered := g.modifyScope r.origin fun s =>
    { s with references := s.references.push id, pending := s.pending.push id }
  { entered with references := g.references.push { r with id } }

/-- Binds a reference and a variable to each other. A tainted reference taints its variable. -/
def link (g : ScopeGraph ν) (r : ReferenceId) (v : VariableId) : ScopeGraph ν :=
  let tainted := (g.getReference? r).any (·.tainted)
  (g.modifyReference r fun r => { r with resolved := some v }).modifyVariable v fun v =>
    { v with references := v.references.push r, tainted := v.tainted || tainted }

def mapNames {μ : Type} [DecidableEq μ] (f : ν → μ) (g : ScopeGraph ν) : ScopeGraph μ where
  scopes := g.scopes.map (·.mapNames f)
  bindings := g.bindings.map (·.mapName f)
  references := g.references.map (·.mapName f)
  anchors := g.anchors
  declared := g.declared
  implicit := g.implicit.mapNames f

end ScopeGraph

end LexicalScope
