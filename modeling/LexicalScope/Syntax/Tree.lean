import LexicalScope.Syntax.Node

/-!
Syntax trees as arrays of nodes. Every child stands before the node that lists it, so walking
down a tree lowers the node number and walking up raises it. A node that several nodes list has
the last of them as its parent; the root has none.
-/
namespace LexicalScope

structure Node where
  kind : NodeKind
  span : Span := {}

/-- Each node lists only nodes stored before it. -/
def ChildrenBelow (nodes : Array Node) : Prop :=
  ∀ i (h : i < nodes.size), ∀ c ∈ nodes[i].kind.children, c.index < i

/-- One file: its nodes, its root and its comments. -/
structure Tree where
  nodes : Array Node
  parents : Array (Option NodeId)
  root : NodeId
  comments : Array Comment
  root_lt : root.index < nodes.size
  childrenBelow : ChildrenBelow nodes

namespace Tree

def size (t : Tree) : Nat :=
  t.nodes.size

def isEmpty (t : Tree) : Bool :=
  t.nodes.isEmpty

def contains (t : Tree) (n : NodeId) : Bool :=
  n.index < t.size

def node? (t : Tree) (n : NodeId) : Option Node :=
  t.nodes[n.index]?

def kind? (t : Tree) (n : NodeId) : Option NodeKind :=
  (t.node? n).map (·.kind)

def rootKind (t : Tree) : NodeKind :=
  have := t.root_lt
  t.nodes[t.root.index].kind

def parent? (t : Tree) (n : NodeId) : Option NodeId :=
  t.parents[n.index]?.join

def identifierName? (t : Tree) (n : NodeId) : Option String :=
  (t.kind? n).bind NodeKind.identifierName?

def isProgram (t : Tree) (n : NodeId) : Bool :=
  (t.kind? n).any NodeKind.isProgram

def isPattern (t : Tree) (n : NodeId) : Bool :=
  (t.kind? n).any NodeKind.isPattern

def comment? (t : Tree) (c : CommentId) : Option Comment :=
  t.comments[c.index]?

def ancestorsWithin (t : Tree) : Nat → NodeId → List NodeId
  | 0, _ => []
  | fuel + 1, n =>
    match t.parent? n with
    | none => []
    | some p => p :: ancestorsWithin t fuel p

/-- The parent, its parent and so on. Parents have larger numbers, so there are fewer of them
than nodes. -/
def ancestors (t : Tree) (n : NodeId) : List NodeId :=
  t.ancestorsWithin t.size n

def isWithin (t : Tree) (top n : NodeId) : Bool :=
  n = top || (t.ancestors n).contains top

def mentionedNames (t : Tree) : List String :=
  t.nodes.toList.filterMap (·.kind.mentionedName?)

end Tree

def linkChildren (parents : Array (Option NodeId)) (p : NodeId) (children : List NodeId) :
    Array (Option NodeId) :=
  children.foldl (fun ps c => ps.setIfInBounds c.index (some p)) parents

/-- The parent of every node: the last node that lists it, and none for the root. -/
def linkParents (nodes : Array Node) (root : NodeId) : Array (Option NodeId) :=
  let linked := (List.range nodes.size).foldl
    (fun ps i => linkChildren ps ⟨i⟩ (nodes[i]?.elim [] (·.kind.children)))
    (Array.replicate nodes.size none)
  linked.setIfInBounds root.index none

end LexicalScope
