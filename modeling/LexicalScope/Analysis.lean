import LexicalScope.Names
import LexicalScope.Scope.Cursor
import LexicalScope.Scope.Globals
import LexicalScope.Scope.Outline

/-!
Analysis of one file. The outline of its program is turned into a scope graph over name handles,
and the settings of the file are applied to the graph. All names that come up enter the name
table of the file; if an import stands in the wrong place, only those reached before it do.
-/
namespace LexicalScope

inductive ScopeError where
  | rootNotProgram (root : NodeId) (typeName : String)
  | unknownNode (node : NodeId) (size : Nat)
  | notImplemented (operation : String)
  | noActiveFile
  | importOutsideModule (declaration : NodeId)
deriving DecidableEq

def ScopeError.message : ScopeError → String
  | rootNotProgram root typeName =>
    "invalid argument: root " ++ root.text ++ " is a " ++ typeName ++ ", not a Program"
  | unknownNode node size =>
    "invalid argument: node " ++ node.text ++ " is not part of the loaded tree (" ++
      toString size ++ " nodes)"
  | notImplemented operation => operation ++ " is not implemented"
  | noActiveFile => "no file is loaded"
  | importOutsideModule declaration =>
    "import declaration " ++ declaration.text ++ " outside of module source"

def ScopeGraph.ofOutline {ν : Type} [DecidableEq ν] (t : Tree) (outline : List (Step ν))
    (settings : GlobalSettings ν) : ScopeGraph ν :=
  (ScopeGraph.ofSteps t outline).finalize settings

/-- The scope graph of a file, or the reason why it has none, together with the name table that
the analysis leaves behind. -/
def analyze (names : NameTable) (t : Tree) (o : LanguageOptions) (envs : Environments) :
    NameTable × Except ScopeError (ScopeGraph Name) :=
  match t.outline? o with
  | none => (names, .error (.rootNotProgram t.root t.rootKind.typeName))
  | some outline =>
    let names := names.addAll ((Step.reached outline).filterMap Step.name?)
    match outline.findSome? Step.misplacedImport? with
    | some declaration => (names, .error (.importOutsideModule declaration))
    | none =>
      let settings := GlobalSettings.ofFile o envs t.comments
      let names := names.addAll settings.names
      (names, .ok (.ofOutline t (outline.map (.mapName names.handle))
        (settings.mapNames names.handle)))

/-- The variable that a text stands for in scope `s`. A text without a handle names nothing. -/
def ScopeGraph.findText? (g : ScopeGraph Name) (names : NameTable) (s : ScopeId) (text : String) :
    Option VariableId :=
  (names.get? text).bind (g.findVariable? s)

end LexicalScope
