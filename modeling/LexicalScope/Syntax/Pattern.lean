import LexicalScope.Syntax.Tree

/-!
Binding and assignment patterns. A walk over a pattern finds its targets, the identifiers that
it binds or assigns, each with the defaults around it. Expressions inside the pattern (defaults,
computed keys, objects of member targets) are set aside as right-hand nodes, to be visited after
all targets.
-/
namespace LexicalScope

/-- An assignment `left = right` on the way to a target. -/
structure PatternDefault where
  node : NodeId
  left : NodeId
  right : NodeId
deriving DecidableEq

structure PatternTarget where
  identifier : NodeId
  name : String
  /-- The identifier is the whole pattern. -/
  topLevel : Bool
  /-- It stands right behind the dots of a rest element. -/
  rest : Bool
  /-- The defaults around it, outermost first. -/
  defaults : List PatternDefault
deriving DecidableEq

structure Pattern where
  targets : List PatternTarget := []
  rightHand : List NodeId := []
deriving DecidableEq

namespace Pattern

def append (p q : Pattern) : Pattern :=
  ⟨p.targets ++ q.targets, p.rightHand ++ q.rightHand⟩

instance : Append Pattern := ⟨append⟩

def join (ps : List Pattern) : Pattern :=
  ⟨ps.flatMap targets, ps.flatMap rightHand⟩

/-- What a node inside a pattern knows of the nodes around it. -/
structure Surroundings where
  defaults : List PatternDefault := []
  /-- The argument of the innermost rest element. -/
  restArgument : Option NodeId := none

def ofKind (root : NodeId) (walk : Surroundings → NodeId → Pattern) (s : Surroundings)
    (n : NodeId) : NodeKind → Pattern
  | .identifier name =>
    { targets := [{
        identifier := n
        name
        topLevel := n = root
        rest := s.restArgument = some n
        defaults := s.defaults }] }
  | .property p => { rightHand := if p.computed then [p.key] else [] } ++ walk s p.value
  | .assignmentPattern left right | .assignmentExpression _ left right =>
    walk { s with defaults := s.defaults ++ [⟨n, left, right⟩] } left ++ { rightHand := [right] }
  | .restElement argument => walk { s with restArgument := some argument } argument
  | .memberExpression object key computed _ =>
    { rightHand := if computed then [key, object] else [object] }
  | .callExpression callee arguments _ => { rightHand := arguments } ++ walk s callee
  | kind => join (kind.children.map (walk s))

def walkWithin (t : Tree) (root : NodeId) : Nat → Surroundings → NodeId → Pattern
  | 0, _, _ => {}
  | fuel + 1, s, n => (t.kind? n).elim {} (ofKind root (walkWithin t root fuel) s n)

end Pattern

/-- The pattern rooted at `root`. Children have smaller numbers, so the walk goes no deeper than
the number of its root. -/
def Tree.pattern (t : Tree) (root : NodeId) : Pattern :=
  Pattern.walkWithin t root (root.index + 1) {} root

end LexicalScope
