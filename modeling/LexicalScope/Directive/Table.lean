import LexicalScope.Directive.Comment
import LexicalScope.Syntax.Node
import LexicalScope.Table.OrderedMap

/-!
The directives of all comments of a file. Names keep the place of their first entry and take the
value of their last one. Only block comments carry directives.
-/
namespace LexicalScope

/-- A global that directive comments declare, with every comment that declares it. -/
structure InlineGlobal where
  value : GlobalValue
  comments : List CommentId
deriving DecidableEq

/-- The entry after one more comment has given it a value. -/
def InlineGlobal.again (g : InlineGlobal) (value : GlobalValue) (c : CommentId) : InlineGlobal where
  value
  comments := if g.comments.getLast? = some c then g.comments else g.comments ++ [c]

structure DirectiveTable where
  globals : OrderedMap String InlineGlobal := {}
  /-- The last comment that exports each name. -/
  exported : OrderedMap String CommentId := {}

namespace DirectiveTable

def isEmpty (d : DirectiveTable) : Bool :=
  d.globals.isEmpty && d.exported.isEmpty

def addGlobal (c : CommentId) (globals : OrderedMap String InlineGlobal)
    (entry : String × GlobalValue) : OrderedMap String InlineGlobal :=
  let (name, value) := entry
  globals.insert name (((globals.get? name).map (·.again value c)).getD ⟨value, [c]⟩)

def add (d : DirectiveTable) (c : CommentId) : Directive → DirectiveTable
  | .globals entries => { d with globals := entries.foldl (addGlobal c) d.globals }
  | .exported names =>
    { d with exported := names.foldl (fun m name => m.insert name c) d.exported }

def addComment (d : DirectiveTable) (entry : Comment × Nat) : DirectiveTable :=
  let (comment, index) := entry
  if comment.isBlock then (Directive.ofComment? comment.text).elim d (d.add ⟨index⟩) else d

def ofComments (comments : Array Comment) : DirectiveTable :=
  comments.toList.zipIdx.foldl addComment {}

end DirectiveTable

end LexicalScope
