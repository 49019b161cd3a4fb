import LexicalScope.Number.Decimal
import LexicalScope.Syntax.Tree

/-!
Building trees bottom up. `alloc` stores one node and refuses a node that lists a node not yet
stored. The other constructions store the helper nodes of a phrase first, in the order in which
they are written here, and then the phrase itself; `finish` closes the tree.
-/
namespace LexicalScope

inductive BuildError where
  | unknownNode
deriving DecidableEq

/-- A tree under construction. -/
structure Draft where
  nodes : Array Node := #[]
  comments : Array Comment := #[]
  childrenBelow : ChildrenBelow nodes := by intro i h; simp at h

theorem ChildrenBelow.push {nodes : Array Node} (hnodes : ChildrenBelow nodes) (node : Node)
    (hnode : ∀ c ∈ node.kind.children, c.index < nodes.size) :
    ChildrenBelow (nodes.push node) := by
  intro i h c hc
  rw [Array.getElem_push] at hc
  split at hc
  · exact hnodes i _ c hc
  · have : i = nodes.size := by simp at h; omega
    exact this ▸ hnode c hc

theorem ChildrenBelow.setSpan {nodes : Array Node} (hnodes : ChildrenBelow nodes) (n : Nat)
    (span : Span) : ChildrenBelow (nodes.modify n fun node => { node with span }) := by
  intro i h c hc
  rw [Array.getElem_modify] at hc
  split at hc <;> exact hnodes i (by simpa using h) c hc

def Draft.finish (d : Draft) (root : NodeId) : Except BuildError Tree :=
  if h : root.index < d.nodes.size then
    .ok {
      nodes := d.nodes
      parents := linkParents d.nodes root
      root
      comments := d.comments
      root_lt := h
      childrenBelow := d.childrenBelow }
  else .error .unknownNode

abbrev Build := StateT Draft (Except BuildError)

namespace Build

def alloc (kind : NodeKind) (span : Span := {}) : Build NodeId := fun d =>
  if h : ∀ c ∈ kind.children, c.index < d.nodes.size then
    .ok (⟨d.nodes.size⟩,
      { d with
        nodes := d.nodes.push { kind, span }
        childrenBelow := d.childrenBelow.push { kind, span } h })
  else .error .unknownNode

def setSpan (n : NodeId) (span : Span) : Build Unit := fun d =>
  if n.index < d.nodes.size then
    .ok ((),
      { d with
        nodes := d.nodes.modify n.index fun node => { node with span }
        childrenBelow := d.childrenBelow.setSpan n.index span })
  else .error .unknownNode

def comment (kind : CommentKind) (text : String) (span : Span := {}) : Build CommentId := fun d =>
  .ok (⟨d.comments.size⟩, { d with comments := d.comments.push { kind, text, span } })

def tree (b : Build NodeId) : Except BuildError Tree := do
  let (root, d) ← b.run {}
  d.finish root

def identifier (name : String) : Build NodeId :=
  alloc (.identifier name)

def identifier? (name : Option String) : Build (Option NodeId) :=
  name.mapM identifier

/-- A literal in double quotes; its raw text repeats the value as it is. -/
def string (value : String) : Build NodeId :=
  alloc (.literal (.string value) (some ("\"" ++ value ++ "\"")))

def number (value : Double) : Build NodeId :=
  alloc (.literal (.number value) (some value.text))

def boolean (value : Bool) : Build NodeId :=
  alloc (.literal (.boolean value) (some (if value then "true" else "false")))

def null : Build NodeId :=
  alloc (.literal .null (some "null"))

/-- The chunks of a template literal; the last one is marked as its tail. -/
def templateElements : List String → Build (List NodeId)
  | [] => return []
  | raw :: rest => do
    let element ← alloc (.templateElement raw (some raw) rest.isEmpty)
    return element :: (← templateElements rest)

def template (quasis : List String) (expressions : List NodeId) : Build NodeId := do
  alloc (.templateLiteral (← templateElements quasis) expressions)

def property (key : String) (value : NodeId) : Build NodeId := do
  alloc (.property { key := ← identifier key, value })

def computedProperty (key value : NodeId) : Build NodeId :=
  alloc (.property { key, value, computed := true })

def shorthandProperty (name : String) : Build NodeId := do
  let key ← identifier name
  let value ← identifier name
  alloc (.property { key, value, shorthand := true })

def shorthandDefault (name : String) (default : NodeId) : Build NodeId := do
  let key ← identifier name
  let target ← identifier name
  let value ← alloc (.assignmentPattern target default)
  alloc (.property { key, value, shorthand := true })

def methodProperty (key : String) (value : NodeId) : Build NodeId := do
  alloc (.property { key := ← identifier key, value, method := true })

def block (body : List NodeId) : Build NodeId :=
  alloc (.blockStatement body)

def function (name : Option String) (params body : List NodeId) : Build Function := do
  let id ← identifier? name
  let body ← block body
  return { id, params, body := some body }

def functionExpression (name : Option String) (params body : List NodeId) : Build NodeId := do
  alloc (.functionExpression (← function name params body))

def functionDeclaration (name : Option String) (params body : List NodeId) : Build NodeId := do
  alloc (.functionDeclaration (← function name params body))

def arrow (params : List NodeId) (body : NodeId) : Build NodeId :=
  alloc (.arrowFunctionExpression { params, body, expression := true })

def arrowBlock (params body : List NodeId) : Build NodeId := do
  alloc (.arrowFunctionExpression { params, body := ← block body, expression := false })

def classParts (name : Option String) (superClass : Option NodeId) (members : List NodeId) :
    Build Class := do
  let id ← identifier? name
  let body ← alloc (.classBody members)
  return { id, superClass, body }

def classExpression (name : Option String) (superClass : Option NodeId) (members : List NodeId) :
    Build NodeId := do
  alloc (.classExpression (← classParts name superClass members))

def classDeclaration (name : Option String) (superClass : Option NodeId) (members : List NodeId) :
    Build NodeId := do
  alloc (.classDeclaration (← classParts name superClass members))

def call (callee : NodeId) (arguments : List NodeId) : Build NodeId :=
  alloc (.callExpression callee arguments false)

def member (object : NodeId) (key : String) : Build NodeId := do
  alloc (.memberExpression object (← identifier key) false false)

def computedMember (object key : NodeId) : Build NodeId :=
  alloc (.memberExpression object key true false)

/-- A meta property: `new.target` or `import.meta`. -/
def metaProperty (object key : String) : Build NodeId := do
  let object ← identifier object
  let key ← identifier key
  alloc (.metaProperty object key)

/-- A statement that is only a string, such as `"use strict"`. -/
def directive (value : String) : Build NodeId := do
  alloc (.expressionStatement (← string value) (some value))

def labeled (label : String) (body : NodeId) : Build NodeId := do
  alloc (.labeledStatement (← identifier label) body)

def breakStatement (label : Option String) : Build NodeId := do
  alloc (.breakStatement (← identifier? label))

def continueStatement (label : Option String) : Build NodeId := do
  alloc (.continueStatement (← identifier? label))

def catchClause (param : Option NodeId) (body : List NodeId) : Build NodeId := do
  alloc (.catchClause param (← block body))

/-- The declaration `kind name = init` with one declarator. -/
def declare (kind : VariableKind) (name : String) (init : Option NodeId) : Build NodeId := do
  let id ← identifier name
  let declarator ← alloc (.variableDeclarator id init)
  alloc (.variableDeclaration kind [declarator])

def method (kind : MethodKind) (key : String) (value : NodeId) (isStatic : Bool) :
    Build NodeId := do
  alloc (.methodDefinition { key := ← identifier key, value, kind, isStatic })

def propertyDefinition (key : String) (value : Option NodeId) (isStatic : Bool) :
    Build NodeId := do
  alloc (.propertyDefinition { key := ← identifier key, value, isStatic })

def computedPropertyDefinition (key : NodeId) (value : Option NodeId) (isStatic : Bool) :
    Build NodeId :=
  alloc (.propertyDefinition { key, value, computed := true, isStatic })

def importDeclaration (specifiers : List NodeId) (source : String) (kind : ImportKind := .value) :
    Build NodeId := do
  alloc (.importDeclaration specifiers (← string source) kind)

def importSpecifier (imported localName : String) (kind : ImportKind := .value) :
    Build NodeId := do
  let imported ← identifier imported
  let localName ← identifier localName
  alloc (.importSpecifier imported localName kind)

def importDefault (localName : String) : Build NodeId := do
  alloc (.importDefaultSpecifier (← identifier localName))

def importNamespace (localName : String) : Build NodeId := do
  alloc (.importNamespaceSpecifier (← identifier localName))

def exportNamed (declaration : Option NodeId) (specifiers : List NodeId)
    (source : Option String) : Build NodeId := do
  alloc (.exportNamedDeclaration declaration specifiers (← source.mapM string))

def exportSpecifier (localName exported : String) : Build NodeId := do
  let localName ← identifier localName
  let exported ← identifier exported
  alloc (.exportSpecifier localName exported)

def exportAll (exported : Option String) (source : String) : Build NodeId := do
  let exported ← identifier? exported
  alloc (.exportAllDeclaration exported (← string source))

end Build

end LexicalScope
