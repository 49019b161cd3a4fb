import LexicalScope.Scope.Resolution
import LexicalScope.Scope.Step

/-!
Taking steps. A cursor is a scope graph under construction with the scopes that are open,
innermost first. Leaving a block closes every open scope anchored at it.
-/
namespace LexicalScope

structure Cursor (ν : Type) where
  graph : ScopeGraph ν := {}
  opened : List ScopeId := []

namespace Cursor

variable {ν : Type} [DecidableEq ν]

def current (c : Cursor ν) : ScopeId :=
  c.opened.head?.getD .global

def place (c : Cursor ν) : Place → ScopeId
  | .current => c.current
  | .variableScope => c.graph.variableScope c.current

def enter (c : Cursor ν) (kind : ScopeKind) (block : NodeId) (strict : Bool) : Cursor ν where
  graph := c.graph.openScope kind block strict c.opened.head?
  opened := c.graph.nextScope :: c.opened

def leaveAll (t : Tree) (block : NodeId) (g : ScopeGraph ν) : List ScopeId → Cursor ν
  | [] => ⟨g, []⟩
  | s :: outer =>
    if (g.getScope? s).any (·.block = block) then leaveAll t block (g.closeScope t s) outer
    else ⟨g, s :: outer⟩

/-- Closes the open scopes anchored at `block`, as far as they are innermost. -/
def leave (c : Cursor ν) (t : Tree) (block : NodeId) : Cursor ν :=
  leaveAll t block c.graph c.opened

/-- The reference that an occurrence makes in the current scope. Only in sloppy code can it
create a global. -/
def reference (c : Cursor ν) (o : Occurrence ν) : Reference ν where
  id := c.graph.nextReference
  identifier := o.identifier
  name := o.name
  origin := c.current
  access := o.access
  writeExpr := o.writeExpr
  partialWrite := o.partialWrite
  init := o.init
  site := if c.graph.isStrict c.current then none else o.assignment.map (⟨o.identifier, ·⟩)

def step (t : Tree) (c : Cursor ν) : Step ν → Cursor ν
  | .enter kind block strict => c.enter kind block strict
  | .leave block => c.leave t block
  | .declare place name definition =>
    { c with graph := c.graph.declare (c.place place) name definition }
  | .refer o => { c with graph := c.graph.addReference (c.reference o) }
  | .this =>
    { c with
      graph := c.graph.modifyScope (c.graph.variableScope c.current)
        fun s => { s with thisFound := true } }
  | .misplacedImport _ => c

def run (t : Tree) (c : Cursor ν) (steps : List (Step ν)) : Cursor ν :=
  steps.foldl (step t) c

end Cursor

def ScopeGraph.ofSteps {ν : Type} [DecidableEq ν] (t : Tree) (steps : List (Step ν)) :
    ScopeGraph ν :=
  (Cursor.run t {} steps).graph

end LexicalScope
